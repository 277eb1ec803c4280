import EventRelay.Abi.Kind

/-!
# Type names

A type name is a root name or a list of types in parentheses, followed by array sizes. `parse?`
reads the grammar; it accepts any identifier as a root, so a name may parse and still denote no
type. `kind` resolves it: a root of another library (`Lib.Enum`) is an enumeration and stands for
`uint8`, and the sizes of `uint` and `int` default to 256 bits.
-/

namespace EventRelay.Abi

/-- A type name as written: what it is an array of, and the array sizes from the inside out. -/
inductive Specifier
  | root (name : String) (sizes : List (Option Nat))
  | tuple (items : List Specifier) (sizes : List (Option Nat))

/-- Why a type name denotes no type. -/
inductive KindError
  | badSize (name : String)
  | unknown (name : String)
  | malformed
  deriving DecidableEq

/-- The text of the error. -/
def KindError.message : KindError → String
  | .badSize name => "invalid size for type: " ++ name
  | .unknown name => "invalid type string: " ++ name
  | .malformed => "parser error"

/-- Whether a character can begin an identifier. -/
def isIdentifierStart (c : Char) : Bool := c.isAlpha || c = '_' || c = '$'

/-- Whether a character can continue an identifier. -/
def isIdentifierPart (c : Char) : Bool := c.isAlphanum || c = '_' || c = '$'

/-- Whether a text is an identifier. -/
def isIdentifier (s : String) : Bool :=
  match s.toList with
  | [] => false
  | c :: cs => isIdentifierStart c && cs.all isIdentifierPart

/-- The characters after spaces and tabs. -/
def skipBlank (cs : List Char) : List Char := cs.dropWhile fun c => c = ' ' || c = '\t'

/-- The end of a list: blanks and the closing bracket. -/
def listEnd? {α : Type} (close : Char) (cs : List Char) : Option (List α × List Char) :=
  match skipBlank cs with
  | c :: rest => if c = close then some ([], rest) else none
  | [] => none

/-- The items of a list after its first one. Items are separated by a comma, which blanks may
follow; one comma may trail, and blanks may stand before the end. -/
def moreItems? {α : Type} (item : List Char → Option (α × List Char)) (close : Char) :
    (fuel : Nat) → List Char → Option (List α × List Char)
  | fuel + 1, ',' :: after =>
    match item (skipBlank after) with
    | some (x, rest) => (moreItems? item close fuel rest).map fun (xs, rest) => (x :: xs, rest)
    | none => listEnd? close after
  | _, cs => listEnd? close cs

/-- A list in brackets, the opening one first. -/
def bracketed? {α : Type} (item : List Char → Option (α × List Char)) (start close : Char)
    (cs : List Char) : Option (List α × List Char) :=
  match cs with
  | [] => none
  | c :: cs =>
    if c ≠ start then none
    else
      match skipBlank cs with
      | [] => none
      | d :: rest =>
        if d = close then some ([], rest)
        else do
          let (x, rest) ← item (d :: rest)
          let (xs, rest) ← moreItems? item close rest.length rest
          pure (x :: xs, rest)

namespace Specifier

/-- The identifier that begins here. -/
def identifier? : List Char → Option (String × List Char)
  | [] => none
  | c :: cs =>
    if isIdentifierStart c then
      some (String.ofList (c :: cs.takeWhile isIdentifierPart), cs.dropWhile isIdentifierPart)
    else none

/-- The root name that begins here. -/
def rootName? (cs : List Char) : Option (String × List Char) := do
  let (name, rest) ← identifier? cs
  match rest with
  | '.' :: rest =>
    let (_, rest) ← identifier? rest
    pure ("uint8", rest)
  | rest =>
    let name := if name = "uint" then "uint256" else if name = "int" then "int256" else name
    pure (name, rest)

/-- The array sizes that begin here. -/
def sizes? : (fuel : Nat) → List Char → Option (List (Option Nat) × List Char)
  | fuel + 1, '[' :: cs =>
    let run := cs.takeWhile Text.Decimal.isDigit
    match cs.dropWhile Text.Decimal.isDigit with
    | ']' :: rest => do
      let n := Text.Decimal.value run
      if !run.isEmpty && (n = 0 || UInt64.size ≤ n) then none
      else
        let (more, rest) ← sizes? fuel rest
        pure ((if run.isEmpty then none else some n) :: more, rest)
    | _ => none
  | _, cs => some ([], cs)

/-- The type name that begins here. -/
def read? : (fuel : Nat) → List Char → Option (Specifier × List Char)
  | 0, _ => none
  | fuel + 1, cs =>
    let inner := if "tuple(".toList.isPrefixOf cs then cs.drop 5 else cs
    match inner with
    | '(' :: _ => do
      let (items, rest) ← bracketed? (read? fuel) '(' ')' inner
      let (sizes, rest) ← sizes? (rest.length + 1) rest
      pure (.tuple items sizes, rest)
    | _ => do
      let (name, rest) ← rootName? cs
      let (sizes, rest) ← sizes? (rest.length + 1) rest
      pure (.root name sizes, rest)

/-- The type name that a text is. -/
def parse? (s : String) : Option Specifier :=
  let cs := s.toList
  match read? (cs.length + 1) cs with
  | some (t, []) => some t
  | _ => none

/-- The array sizes of a type name. -/
def sizes : Specifier → List (Option Nat)
  | .root _ sizes => sizes
  | .tuple _ sizes => sizes

end Specifier

namespace Kind

/-- The type with array sizes put around it, the first one innermost. -/
def wrap (k : Kind) (sizes : List (Option Nat)) : Kind :=
  sizes.foldl (fun k size => match size with | none => .array k | some n => .fixedArray k n) k

/-- The elementary type that a root name denotes. -/
def ofRoot (name : String) : Except KindError Kind :=
  if name = "address" then .ok .address
  else if name = "function" then .ok .function
  else if name = "bool" then .ok .bool
  else if name = "string" then .ok .string
  else if name = "bytes" then .ok .bytes
  else
    let cs := name.toList
    let sized (ok : Nat → Bool) (kind : Nat → Kind) (digits : List Char) : Except KindError Kind :=
      match Text.Decimal.natural? digits with
      | some n => if ok n then .ok (kind n) else .error (.badSize name)
      | none => .error (.badSize name)
    let width (n : Nat) : Bool := n ≠ 0 && n ≤ 256 && n % 8 = 0
    if "bytes".toList.isPrefixOf cs then sized (fun n => n ≠ 0 && n ≤ 32) .fixedBytes (cs.drop 5)
    else if "uint".toList.isPrefixOf cs then sized width .uint (cs.drop 4)
    else if "int".toList.isPrefixOf cs then sized width .int (cs.drop 3)
    else .error (.unknown name)

mutual

/-- The type that a type name denotes. -/
def ofSpecifier : Specifier → Except KindError Kind
  | .root name sizes => (ofRoot name).map fun k => k.wrap sizes
  | .tuple items sizes => (ofSpecifiers items).map fun ks => (Kind.tuple ks).wrap sizes

/-- The types that several type names denote, or the error of the first that denotes none. -/
def ofSpecifiers : List Specifier → Except KindError (List Kind)
  | [] => .ok []
  | t :: ts => do
    let k ← ofSpecifier t
    let ks ← ofSpecifiers ts
    pure (k :: ks)

end

/-- The type that a text denotes. -/
def parse (s : String) : Except KindError Kind :=
  match Specifier.parse? s with
  | some t => ofSpecifier t
  | none => .error .malformed

end Kind

end EventRelay.Abi
