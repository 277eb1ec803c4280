import EventRelay.Bytes
import EventRelay.Json.Draft

/-!
# Reading typed data from JSON

A reader goes through a draft and gives the data it stands for or the first thing that is wrong.
Records are objects, whose members come in order and each at most once, or lists, whose items stand
for the fields by position. Drafts of finished values and drafts of texts follow the same rules up
to a few points that `Source` decides.
-/

namespace EventRelay.Json

/-- Whether a draft is that of a finished value or that of a text being read. -/
inductive Source
  | value
  | text
  deriving DecidableEq

/-- What a reader met. -/
inductive Shape
  | null
  | bool (b : Bool)
  | integer (i : Int)
  | float (f : Float)
  | str (s : String)
  | list
  | map

/-- Why data could not be read. -/
inductive ReadError
  | missing (field : String)
  | duplicate (field : String)
  | unknownVariant (given : String) (known : List String)
  | wrongType (found : Shape) (expected : String)
  | wrongValue (found : Shape) (expected : String)
  | wrongLength (length : Nat) (expected : String)
  /-- The text is not JSON, or a text inside it is not of the form it must have. -/
  | malformed

/-- The result of reading. -/
abbrev Read (α : Type) := Except ReadError α

/-- The code points that a quoted text shows by number, beside the control characters: marks that
combine with the character before them, invisible characters and private ones. -/
def hiddenRanges : List (Nat × Nat) :=
  [(0x7F, 0x9F), (0xAD, 0xAD), (0x300, 0x36F), (0x483, 0x489), (0x591, 0x5BD), (0x600, 0x605),
   (0x61C, 0x61C), (0x64B, 0x65F), (0x6DD, 0x6DD), (0x70F, 0x70F), (0x1680, 0x1680),
   (0x180B, 0x180F), (0x1AB0, 0x1ACE), (0x1DC0, 0x1DFF), (0x2000, 0x200F), (0x2028, 0x202F),
   (0x205F, 0x206F), (0x20D0, 0x20F0), (0x3000, 0x3000), (0x302A, 0x302F), (0x3099, 0x309A),
   (0xE000, 0xF8FF), (0xFE00, 0xFE0F), (0xFE20, 0xFE2F), (0xFEFF, 0xFEFF), (0xFFF0, 0xFFFB),
   (0xFFFE, 0xFFFF), (0xE0000, 0x10FFFF), (0xA0, 0xA0)]

/-- One character of a quoted text. -/
def quotedChar (c : Char) : List Char :=
  if c = '"' then ['\\', '"']
  else if c = '\\' then ['\\', '\\']
  else if c = '\n' then ['\\', 'n']
  else if c = '\r' then ['\\', 'r']
  else if c = '\t' then ['\\', 't']
  else if c.toNat = 0 then ['\\', '0']
  else if c.toNat < 0x20 || hiddenRanges.any (fun (lo, hi) => lo ≤ c.toNat && c.toNat ≤ hi) then
    '\\' :: 'u' :: '\x7b' :: (Nat.toDigits 16 c.toNat ++ ['\x7d'])
  else [c]

/-- A text in quotes as a message shows it. -/
def quoted (s : String) : String :=
  "\"" ++ String.ofList (s.toList.flatMap quotedChar) ++ "\""

namespace Shape

/-- The words for what a reader met. -/
def text : Shape → String
  | .null => "null"
  | .bool b => "boolean `" ++ (if b then "true" else "false") ++ "`"
  | .integer i => "integer `" ++ Text.Decimal.ofInt i ++ "`"
  | .float f => "floating point `" ++ Decimal.textOfFloat f ++ "`"
  | .str s => "string " ++ quoted s
  | .list => "sequence"
  | .map => "map"

end Shape

namespace ReadError

/-- The alternatives of a choice in words. -/
def alternatives : List String → String
  | [] => "there are no variants"
  | [a] => "expected `" ++ a ++ "`"
  | [a, b] => "expected `" ++ a ++ "` or `" ++ b ++ "`"
  | more => "expected one of " ++ ", ".intercalate (more.map fun a => "`" ++ a ++ "`")

/-- The text of the error; there is none for what is not JSON. -/
def message? : ReadError → Option String
  | .missing field => some ("missing field `" ++ field ++ "`")
  | .duplicate field => some ("duplicate field `" ++ field ++ "`")
  | .unknownVariant given known =>
    some ("unknown variant `" ++ given ++ "`, " ++ alternatives known)
  | .wrongType found expected => some ("invalid type: " ++ found.text ++ ", expected " ++ expected)
  | .wrongValue found expected =>
    some ("invalid value: " ++ found.text ++ ", expected " ++ expected)
  | .wrongLength n expected =>
    some ("invalid length " ++ Text.Decimal.ofNat n ++ ", expected " ++ expected)
  | .malformed => none

end ReadError

namespace Draft

/-- What a reader meets in a draft; `none` where there is no value. -/
def shape? : Draft → Option Shape
  | .null => some .null
  | .bool b => some (.bool b)
  | .num n =>
    match n.numeral? with
    | some (.natural v) => some (.integer v.toNat)
    | some (.negative i) => some (.integer i.toInt)
    | some (.float f) => some (.float f)
    | none => none
  | .str s => s.map .str
  | .arr .. => some .list
  | .obj .. => some .map
  | .fault => none

mutual

/-- How deep lists and objects are nested. -/
def height : Draft → Nat
  | .arr items _ => heights items + 1
  | .obj members _ => memberHeights members + 1
  | _ => 0

/-- How deep lists and objects are nested in the deepest of several drafts. -/
def heights : List Draft → Nat
  | [] => 0
  | d :: ds => max (height d) (heights ds)

/-- How deep lists and objects are nested in the deepest of several members. -/
def memberHeights : List (Option String × Draft) → Nat
  | [] => 0
  | (_, d) :: ms => max (height d) (memberHeights ms)

end

end Draft

namespace Read

/-- The error of a draft that is not what was expected. -/
def mismatch {α : Type} (expected : String) (d : Draft) : Read α :=
  match d.shape? with
  | some s => .error (.wrongType s expected)
  | none => .error .malformed

/-- A string. -/
def string : Draft → Read String
  | .str (some s) => .ok s
  | d => mismatch "a string" d

/-- A file path. -/
def path : Draft → Read String
  | .str (some s) => .ok s
  | d => mismatch "path string" d

/-- A natural number below `bound`. -/
def natural (bound : Nat) (expected : String) (d : Draft) : Read Nat :=
  match d.shape? with
  | some (.integer i) =>
    if 0 ≤ i ∧ i < bound then .ok i.toNat else .error (.wrongValue (.integer i) expected)
  | some s => .error (.wrongType s expected)
  | none => .error .malformed

/-- A natural number of 64 bits. -/
def word64 (d : Draft) : Read UInt64 := (natural UInt64.size "u64" d).map UInt64.ofNat

/-- A natural number of 8 bits. -/
def byte (d : Draft) : Read UInt8 := (natural UInt8.size "u8" d).map UInt8.ofNat

/-- A natural number of 128 bits. A text may write out all of them; a finished value holds no
integer of more than 64 bits. -/
def word128 (source : Source) (d : Draft) : Read Nat :=
  match source, d with
  | .value, d => natural (Bytes.capacity 16) "u128" d
  | .text, .num n =>
    match n.natural? with
    | some v => if v < Bytes.capacity 16 then .ok v else .error .malformed
    | none => .error .malformed
  | .text, _ => .error .malformed

/-- Nothing for null. -/
def optional {α : Type} (read : Draft → Read α) : Draft → Read (Option α)
  | .null => .ok none
  | d => (read d).map some

/-- All items of a list. -/
def items {α : Type} (read : Draft → Read α) : List Draft → Read (List α)
  | [] => .ok []
  | d :: ds => do
    let x ← read d
    let xs ← items read ds
    pure (x :: xs)

/-- A list. -/
def list {α : Type} (read : Draft → Read α) : Draft → Read (List α)
  | .arr ds closed => do
    let xs ← items read ds
    if closed then pure xs else throw .malformed
  | d => mismatch "a sequence" d

/-- A finished value, nested at most `depth` deep when it comes from a text. -/
def json (source : Source) (depth : Nat) (d : Draft) : Read Json :=
  let limit := match source with
    | .value => d.height
    | .text => depth
  match d.toJson? limit with
  | some j => .ok j
  | none => .error .malformed

/-- A variant by its name. -/
def variantOf {α : Type} (variants : List (String × α)) (name : String) : Read α :=
  match variants.find? (·.1 = name) with
  | some (_, x) => .ok x
  | none => .error (.unknownVariant name (variants.map (·.1)))

/-- One of several variants: a string, or an object whose single member has that name and the value
null. -/
def variant {α : Type} (variants : List (String × α)) (source : Source) (d : Draft) : Read α :=
  match d, source with
  | .str (some name), _ => variantOf variants name
  | .obj [(some name, v)] closed, _ => do
    let x ← variantOf variants name
    match v with
    | .null => if closed then pure x else throw .malformed
    | v => mismatch "unit" v
  | .obj ((some name, v) :: _) _, .text => do
    let _ ← variantOf variants name
    match v with
    | .null => throw .malformed
    | v => mismatch "unit" v
  | .obj .., .text => throw .malformed
  | .obj .., .value => throw (.wrongValue .map "map with a single key")
  | d, .value => mismatch "string or map" d
  | _, .text => throw .malformed

/-- Reads a field that has not been read yet. -/
def once {α σ : Type} (name : String) (slot : Option α) (read : Draft → Read α) (put : α → σ)
    (d : Draft) : Read σ :=
  if slot.isSome then .error (.duplicate name) else (read d).map put

/-- Goes through members in order. `field` gives the reader of a known member, which may depend on
what has been read; an unknown member is passed over. -/
def members {σ : Type} (field : σ → String → Option (Draft → Read σ)) :
    σ → List (Option String × Draft) → Read σ
  | s, [] => .ok s
  | _, (none, _) :: _ => .error .malformed
  | s, (some name, d) :: rest =>
    match field s name with
    | some read => do
      let s ← read d
      members field s rest
    | none => if d.isWhole then members field s rest else .error .malformed

/-- The value of a field that must be there. -/
def required {α : Type} (name : String) : Option α → Read α
  | some x => .ok x
  | none => .error (.missing name)

/-- The items of a list that stands for a record: those left, and how many fields were passed. -/
structure Row where
  passed : Nat
  rest : List Draft
  closed : Bool

namespace Row

/-- The next field, which must be there; `record` names the record and its number of fields. -/
def next {α : Type} (r : Row) (record : String) (read : Draft → Read α) : Read (α × Row) :=
  match r.rest with
  | d :: ds => (read d).map fun x => (x, { r with passed := r.passed + 1, rest := ds })
  | [] => if r.closed then .error (.wrongLength r.passed record) else .error .malformed

/-- The next field, or `default` at the end of the list. -/
def nextOr {α : Type} (r : Row) (default : α) (read : Draft → Read α) : Read (α × Row) :=
  match r.rest with
  | d :: ds => (read d).map fun x => (x, { r with passed := r.passed + 1, rest := ds })
  | [] => if r.closed then .ok (default, { r with passed := r.passed + 1 }) else .error .malformed

end Row

/-- A record: an object read by `fields` and finished by `finish`, or a list read by `row`. -/
def record {α σ : Type} (name : String) (source : Source) (start : σ)
    (field : σ → String → Option (Draft → Read σ)) (finish : σ → Read α)
    (row : Row → Read (α × Row)) : Draft → Read α
  | .obj ms closed => do
    let s ← members field start ms
    if closed then finish s else throw .malformed
  | .arr ds closed => do
    let (x, r) ← row ⟨0, ds, closed⟩
    if r.rest.isEmpty then
      if closed then pure x else throw .malformed
    else
      match source with
      | .value => throw (.wrongLength ds.length "fewer elements in array")
      | .text => throw .malformed
  | d => mismatch ("struct " ++ name) d

end Read

end EventRelay.Json
