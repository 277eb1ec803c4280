import EventRelay.Json.Number
import EventRelay.Decimal.Shortest

/-!
# JSON values and their text

A `Json` is a finished value. Its objects hold one member per name; `Json.object` sorts members by
name and lets the last of two with one name win, as a value read from text does. `Json.render`
writes a value without blanks.
-/

namespace EventRelay

/-- A JSON value. -/
inductive Json
  | null
  | bool (b : Bool)
  | num (n : Json.Number)
  | str (s : String)
  | arr (items : List Json)
  | obj (members : List (String × Json))

namespace Json

instance : Inhabited Json := ⟨.null⟩

/-- Puts a member into a list that is sorted by name, over one of the same name. -/
def put (name : String) (value : Json) : List (String × Json) → List (String × Json)
  | [] => [(name, value)]
  | (n, v) :: rest =>
    if name < n then (name, value) :: (n, v) :: rest
    else if name = n then (name, value) :: rest
    else (n, v) :: put name value rest

/-- The object with the given members. -/
def object (members : List (String × Json)) : Json :=
  .obj (members.foldl (fun acc (n, v) => put n v acc) [])

/-- The member of an object with a name. -/
def get? (j : Json) (name : String) : Option Json :=
  match j with
  | .obj members => (members.find? (·.1 = name)).map (·.2)
  | _ => none

/-- The characters of a string literal for one character. -/
def escape (c : Char) : List Char :=
  if c = '"' then ['\\', '"']
  else if c = '\\' then ['\\', '\\']
  else if c = '\n' then ['\\', 'n']
  else if c = '\r' then ['\\', 'r']
  else if c = '\t' then ['\\', 't']
  else if c = Char.ofNat 8 then ['\\', 'b']
  else if c = Char.ofNat 12 then ['\\', 'f']
  else if c.toNat < 0x20 then
    '\\' :: 'u' :: '0' :: '0' :: [Nat.digitChar (c.toNat / 16), Nat.digitChar (c.toNat % 16)]
  else [c]

/-- A string literal. -/
def quote (s : String) : String :=
  "\"" ++ String.ofList (s.toList.flatMap escape) ++ "\""

/-- The text of a number: an integer as it is, a double by its shortest digits. -/
def Number.render (n : Number) : String :=
  match n.numeral? with
  | some (.natural v) => Text.Decimal.ofNat v.toNat
  | some (.negative i) => Text.Decimal.ofInt i.toInt
  | some (.float f) => Decimal.textOfFloat f
  | none => "null"

mutual

/-- The text of a value, without blanks. -/
def render : Json → String
  | .null => "null"
  | .bool b => if b then "true" else "false"
  | .num n => n.render
  | .str s => quote s
  | .arr items => "[" ++ ",".intercalate (renderItems items) ++ "]"
  | .obj members => "\x7b" ++ ",".intercalate (renderMembers members) ++ "\x7d"

/-- The texts of several values. -/
def renderItems : List Json → List String
  | [] => []
  | j :: js => render j :: renderItems js

/-- The texts of several members. -/
def renderMembers : List (String × Json) → List String
  | [] => []
  | (n, j) :: ms => (quote n ++ ":" ++ render j) :: renderMembers ms

end

/-- A natural number as a value. -/
def ofNat (n : Nat) : Json := .num (.ofNat n)

end Json

end EventRelay
