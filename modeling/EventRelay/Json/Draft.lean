import EventRelay.Json.Basic
import EventRelay.Text.Hex

/-!
# Reading JSON text as far as it goes

A `Draft` is what a text says up to the place where it stops being JSON. A reader that goes
through a draft in order therefore meets a value of the wrong type before a fault in the text
further on, and the other way round. `Draft.toJson?` gives the finished value of a draft without
faults; `Json.draft` is the draft of a finished value.
-/

namespace EventRelay.Json

/-- A JSON text, cut where it stops being JSON. -/
inductive Draft
  | null
  | bool (b : Bool)
  | num (n : Number)
  /-- A string; `none` when an escape names half of a character. -/
  | str (s : Option String)
  /-- A list; `closed` when its end was reached. -/
  | arr (items : List Draft) (closed : Bool)
  /-- An object in text order; `closed` when its end was reached. -/
  | obj (members : List (Option String × Draft)) (closed : Bool)
  /-- No value starts here. -/
  | fault

instance : Inhabited Draft := ⟨.fault⟩

namespace Draft

/-- Whether a character may stand between tokens. -/
def isGap (c : Char) : Bool := c = ' ' || c = '\n' || c = '\t' || c = '\r'

/-- The text from its first token on. -/
def skipGap (cs : List Char) : List Char := cs.dropWhile isGap

/-- The number of four hexadecimal digits. -/
def unit? : List Char → Option (Nat × List Char)
  | a :: b :: c :: d :: rest => do
    let a ← Text.Hex.value? a
    let b ← Text.Hex.value? b
    let c ← Text.Hex.value? c
    let d ← Text.Hex.value? d
    pure (((a * 16 + b) * 16 + c) * 16 + d, rest)
  | _ => none

/-- The character that a backslash and one more character stand for. -/
def simpleEscape? (c : Char) : Option Char :=
  if c = '"' || c = '\\' || c = '/' then some c
  else if c = 'n' then some '\n'
  else if c = 'r' then some '\r'
  else if c = 't' then some '\t'
  else if c = 'b' then some (Char.ofNat 8)
  else if c = 'f' then some (Char.ofNat 12)
  else none

/-- What one step inside a string literal yields. -/
inductive Piece
  | done (rest : List Char)
  | char (c : Char) (rest : List Char)
  /-- An escape that names half of a character. -/
  | half (rest : List Char)
  | fault

/-- The next piece of a string literal. -/
def piece : List Char → Piece
  | [] => .fault
  | '"' :: rest => .done rest
  | '\\' :: 'u' :: rest =>
    match unit? rest with
    | none => .fault
    | some (u, after) =>
      if 0xD800 ≤ u ∧ u < 0xDC00 then
        match after with
        | '\\' :: 'u' :: second =>
          match unit? second with
          | none => .fault
          | some (v, tail) =>
            if 0xDC00 ≤ v ∧ v < 0xE000 then
              .char (Char.ofNat (0x10000 + (u - 0xD800) * 0x400 + (v - 0xDC00))) tail
            else .half after
        | _ => .half after
      else if 0xDC00 ≤ u ∧ u < 0xE000 then .half after
      else .char (Char.ofNat u) after
  | '\\' :: c :: rest =>
    match simpleEscape? c with
    | some d => .char d rest
    | none => .fault
  | c :: rest => if c.toNat < 0x20 || c = '\\' then .fault else .char c rest

theorem piece_quote (rest : List Char) : piece ('"' :: rest) = .done rest := by simp only [piece]

/-- The text after an opening quote: the string, and what follows its closing quote. -/
def string : (fuel : Nat) → (acc : Option (List Char)) → List Char →
    Option (Option String × List Char)
  | 0, _, _ => none
  | fuel + 1, acc, cs =>
    match piece cs with
    | .done rest => some (acc.map fun r => String.ofList r.reverse, rest)
    | .char c rest => string fuel (acc.map (c :: ·)) rest
    | .half rest => string fuel none rest
    | .fault => none

/-- The exponent of a number, if one begins here; `none` when it has no digits. -/
def exponent : List Char → Option (Option Int × List Char)
  | [] => some (none, [])
  | c :: rest =>
    if c = 'e' || c = 'E' then
      let (minus, digits) := match rest with
        | '-' :: r => (true, r)
        | '+' :: r => (false, r)
        | r => (false, r)
      let run := digits.takeWhile Text.Decimal.isDigit
      if run.isEmpty then none
      else
        let v : Int := Text.Decimal.value run
        some (some (if minus then -v else v), digits.dropWhile Text.Decimal.isDigit)
    else some (none, c :: rest)

/-- The number that begins here; `none` when the text is no number. -/
def number (cs : List Char) : Option (Number × List Char) :=
  let (negative, cs) := match cs with
    | '-' :: r => (true, r)
    | r => (false, r)
  let whole := cs.takeWhile Text.Decimal.isDigit
  let rest := cs.dropWhile Text.Decimal.isDigit
  let leadingZero := match whole with
    | '0' :: _ :: _ => true
    | _ => false
  if whole.isEmpty || leadingZero then none
  else
    let point : Option (List Char × List Char) := match rest with
      | '.' :: r =>
        let run := r.takeWhile Text.Decimal.isDigit
        if run.isEmpty then none else some (run, r.dropWhile Text.Decimal.isDigit)
      | r => some ([], r)
    match point with
    | none => none
    | some (fraction, rest) =>
      match exponent rest with
      | none => none
      | some (e, rest) =>
        some (⟨negative, whole, fraction, e.getD 0, fraction.isEmpty && e.isNone⟩, rest)

/-- The text after a word, if it begins with it. -/
def word? (w : String) (cs : List Char) : Option (List Char) :=
  if w.toList.isPrefixOf cs then some (cs.drop w.toList.length) else none

mutual

/-- The value that begins here, and what follows it unless the text broke off. -/
def value : (fuel : Nat) → List Char → Draft × Option (List Char)
  | 0, _ => (.fault, none)
  | fuel + 1, cs =>
    match skipGap cs with
    | [] => (.fault, none)
    | '"' :: rest =>
      match string (rest.length + 1) (some []) rest with
      | some (s, rest) => (.str s, some rest)
      | none => (.fault, none)
    | '[' :: rest =>
      match skipGap rest with
      | ']' :: rest => (.arr [] true, some rest)
      | rest =>
        let (xs, closed, rest) := items fuel rest
        (.arr xs closed, rest)
    | '\x7b' :: rest =>
      match skipGap rest with
      | '\x7d' :: rest => (.obj [] true, some rest)
      | rest =>
        let (ms, closed, rest) := members fuel rest
        (.obj ms closed, rest)
    | c :: rest =>
      if c = 'n' then
        match word? "null" (c :: rest) with
        | some rest => (.null, some rest)
        | none => (.fault, none)
      else if c = 't' then
        match word? "true" (c :: rest) with
        | some rest => (.bool true, some rest)
        | none => (.fault, none)
      else if c = 'f' then
        match word? "false" (c :: rest) with
        | some rest => (.bool false, some rest)
        | none => (.fault, none)
      else
        match number (c :: rest) with
        | some (n, rest) => (.num n, some rest)
        | none => (.fault, none)

/-- The items of a list from the first on: the items, whether the list ended, what follows. -/
def items : (fuel : Nat) → List Char → List Draft × Bool × Option (List Char)
  | 0, _ => ([.fault], false, none)
  | fuel + 1, cs =>
    match value fuel cs with
    | (x, none) => ([x], false, none)
    | (x, some rest) =>
      match skipGap rest with
      | ']' :: rest => ([x], true, some rest)
      | ',' :: rest =>
        let (xs, closed, rest) := items fuel rest
        (x :: xs, closed, rest)
      | _ => ([x], false, none)

/-- The members of an object from the first on. -/
def members : (fuel : Nat) → List Char →
    List (Option String × Draft) × Bool × Option (List Char)
  | 0, _ => ([], false, none)
  | fuel + 1, cs =>
    match skipGap cs with
    | '"' :: rest =>
      match string (rest.length + 1) (some []) rest with
      | none => ([], false, none)
      | some (name, rest) =>
        match skipGap rest with
        | ':' :: rest =>
          match value fuel rest with
          | (v, none) => ([(name, v)], false, none)
          | (v, some rest) =>
            match skipGap rest with
            | '\x7d' :: rest => ([(name, v)], true, some rest)
            | ',' :: rest =>
              let (ms, closed, rest) := members fuel rest
              ((name, v) :: ms, closed, rest)
            | _ => ([(name, v)], false, none)
        | _ => ([(name, .fault)], false, none)
    | _ => ([], false, none)

end

theorem value_zero (cs : List Char) : value 0 cs = (.fault, none) := by rw [value]

theorem items_zero (cs : List Char) : items 0 cs = ([.fault], false, none) := by rw [items]

theorem members_zero (cs : List Char) : members 0 cs = ([], false, none) := by rw [members]

/-- The draft of a text, and whether nothing but gaps follows it. -/
def ofText (s : String) : Draft × Bool :=
  let cs := s.toList
  match value (cs.length + 1) cs with
  | (d, some rest) => (d, (skipGap rest).isEmpty)
  | (d, none) => (d, false)

/-- Whether a draft is a value that is no list and no object. -/
def isScalar : Draft → Bool
  | .null => true
  | .bool _ => true
  | .num _ => true
  | .str s => s.isSome
  | _ => false

mutual

/-- Whether the text of a draft is JSON; escapes may name half of a character. -/
def isWhole : Draft → Bool
  | .arr items closed => closed && allWhole items
  | .obj members closed => closed && membersWhole members
  | .fault => false
  | _ => true

/-- Whether several drafts are JSON. -/
def allWhole : List Draft → Bool
  | [] => true
  | d :: ds => d.isWhole && allWhole ds

/-- Whether the values of several members are JSON. -/
def membersWhole : List (Option String × Draft) → Bool
  | [] => true
  | (_, d) :: ms => d.isWhole && membersWhole ms

end

mutual

/-- The value of a draft without faults whose containers are nested at most `depth` deep and whose
numbers a double can hold. -/
def toJson? (depth : Nat) : Draft → Option Json
  | .null => some .null
  | .bool b => some (.bool b)
  | .num n => n.numeral?.map fun _ => .num n
  | .str s => s.map .str
  | .arr items closed =>
    match depth with
    | 0 => none
    | depth + 1 => if closed then (toItems? depth items).map .arr else none
  | .obj members closed =>
    match depth with
    | 0 => none
    | depth + 1 => if closed then (toMembers? depth members).map .object else none
  | .fault => none

/-- The values of several drafts. -/
def toItems? (depth : Nat) : List Draft → Option (List Json)
  | [] => some []
  | d :: ds => do
    let j ← toJson? depth d
    let js ← toItems? depth ds
    pure (j :: js)

/-- The values of several members. -/
def toMembers? (depth : Nat) : List (Option String × Draft) → Option (List (String × Json))
  | [] => some []
  | (name, d) :: ms => do
    let name ← name
    let j ← toJson? depth d
    let rest ← toMembers? depth ms
    pure ((name, j) :: rest)

end

end Draft

/-- How deep containers may be nested in a text that is read into a value. -/
def maxDepth : Nat := 127

/-- The value of a text. -/
def parse? (s : String) : Option Json :=
  match Draft.ofText s with
  | (d, true) => d.toJson? maxDepth
  | _ => none

mutual

/-- The draft of a finished value. -/
def draft : Json → Draft
  | .null => .null
  | .bool b => .bool b
  | .num n => .num n
  | .str s => .str (some s)
  | .arr items => .arr (draftItems items) true
  | .obj members => .obj (draftMembers members) true

/-- The drafts of several values. -/
def draftItems : List Json → List Draft
  | [] => []
  | j :: js => draft j :: draftItems js

/-- The drafts of several members. -/
def draftMembers : List (String × Json) → List (Option String × Draft)
  | [] => []
  | (n, j) :: ms => (some n, draft j) :: draftMembers ms

end

end EventRelay.Json
