import EventRelay.Environment
import EventRelay.Text.Alphanumeric
import EventRelay.Text.Blank

/-!
# Environment variables from a file

A file of assignments `NAME=value`, one to a line unless a quote stays open over the end of the
line. `entries` takes the text apart into such lines, `Assignment.parse` reads one, and `load` sets
the variables that are not set. Reading ends at the first line that is no assignment; what came
before it stays.
-/

namespace EventRelay.Environment.File

/-- Where the reader of a text stands between its characters. -/
inductive Stance
  | plain
  | afterBlank
  | escaped
  | strong
  | strongEscaped
  | weak
  | weakEscaped
  | comment
  deriving DecidableEq

/-- How a character opens a quote or an escape. -/
def Stance.opened (c : Char) : Stance :=
  match c with
  | '\\' => .escaped
  | '"' => .weak
  | '\'' => .strong
  | _ => .plain

/-- The stance after a character that begins no comment. -/
def Stance.next (s : Stance) (c : Char) : Stance :=
  match s with
  | .plain => if Text.isBlank c && c ≠ '\n' && c ≠ '\r' then .afterBlank else opened c
  | .afterBlank => opened c
  | .escaped => .plain
  | .strong => if c = '\\' then .strongEscaped else if c = '\'' then .plain else .strong
  | .strongEscaped => .strong
  | .weak => if c = '\\' then .weakEscaped else if c = '"' then .plain else .weak
  | .weakEscaped => .weak
  | .comment => .comment

/-- The lines of a text from a stance on, given the characters of the present line backwards. A line
that the text leaves open is none. -/
def entriesFrom (s : Stance) (line : List Char) : List Char → List (List Char)
  | [] => if s = .plain && !line.isEmpty then [line.reverse] else []
  | c :: rest =>
    if s = .comment then entriesFrom (if c = '\n' then .plain else .comment) [] rest
    else if c = '#' && (s = .afterBlank || line.all Text.isBlank) then
      line.reverse :: entriesFrom .comment [] rest
    else if c = '\n' && s.next c = .plain then line.reverse :: entriesFrom .plain [] rest
    else entriesFrom (s.next c) (c :: line) rest

/-- The lines of a text; a byte order mark in front does not count. -/
def entries (text : String) : List (List Char) :=
  match text.toList with
  | c :: rest => entriesFrom .plain [] (if c.toNat = 0xFEFF then rest else c :: rest)
  | [] => []

/-- What the reader of a value is in. -/
inductive Phase
  | text
  | strong
  | escaped
  /-- After a blank: nothing but a comment may follow. -/
  | ended
  | comment
  /-- In a name to be replaced, backwards. -/
  | name (reversed : List Char)
  /-- In a name between braces, backwards. -/
  | braced (reversed : List Char)
  deriving DecidableEq

/-- The reader of a value between its characters. -/
structure ValueReader where
  phase : Phase
  /-- Whether a weak quote is open. -/
  weak : Bool
  /-- The value so far, backwards. -/
  output : List Char

namespace ValueReader

/-- The reader before a value. -/
def start : ValueReader := ⟨.text, false, []⟩

/-- Goes on with one more character of the value. -/
def put (r : ValueReader) (c : Char) : ValueReader :=
  { r with phase := .text, output := c :: r.output }

/-- Puts the text of a variable, nothing if it is not set. -/
def substitute (env : Environment) (r : ValueReader) (name : List Char) : ValueReader :=
  let text := (env.get? (String.ofList name.reverse)).getD ""
  { r with phase := .text, output := text.toList.reverse ++ r.output }

/-- Takes a character outside names, escapes and strong quotes. -/
def takeText (r : ValueReader) (c : Char) : ValueReader :=
  if c = '$' then { r with phase := .name [] }
  else if c = '\\' then { r with phase := .escaped }
  else if c = '"' then { r with weak := !r.weak }
  else if r.weak then r.put c
  else if c = '\'' then { r with phase := .strong }
  else if c = ' ' || c = '\t' then { r with phase := .ended }
  else r.put c

/-- Takes a character. -/
def take (env : Environment) (r : ValueReader) (c : Char) : Option ValueReader :=
  match r.phase with
  | .comment => some r
  | .ended =>
    if c = ' ' || c = '\t' then some r
    else if c = '#' then some { r with phase := .comment }
    else none
  | .escaped =>
    if ['\\', '\'', '"', '$', ' '].contains c then some (r.put c)
    else if c = 'n' then some (r.put '\n')
    else none
  | .strong =>
    some (if c = '\'' then { r with phase := .text } else { r.put c with phase := .strong })
  | .name n =>
    if Text.isAlphanumeric c then some { r with phase := .name (c :: n) }
    else if c = '\x7b' && n.isEmpty then some { r with phase := .braced [] }
    else
      let r := r.substitute env n
      some (if c = '$' then { r with phase := .name [] } else r.put c)
  | .braced n =>
    some (if c = '\x7d' then r.substitute env n else { r with phase := .braced (c :: n) })
  | .text => some (r.takeText c)

/-- The value at its end, unless a quote or brace is open. -/
def finish (env : Environment) (r : ValueReader) : Option String :=
  if r.weak then none
  else
    match r.phase with
    | .strong | .braced _ => none
    | .name n => some (String.ofList (r.substitute env n).output.reverse)
    | _ => some (String.ofList r.output.reverse)

end ValueReader

/-- The value that a text stands for. -/
def value? (env : Environment) (cs : List Char) : Option String := do
  (← cs.foldlM (ValueReader.take env) .start).finish env

/-- Whether a character may begin a name. -/
def isNameStart (c : Char) : Bool := c.isAlpha || c = '_'

/-- The name at the front of a text, and what follows it and its blanks. -/
def name? (cs : List Char) : Option (List Char × List Char) :=
  let isPart (c : Char) : Bool := isNameStart c || c.isDigit || c = '.'
  match cs with
  | c :: _ =>
    if isNameStart c then some (cs.takeWhile isPart, (cs.dropWhile isPart).dropWhile Text.isBlank)
    else none
  | [] => none

/-- A line read. -/
inductive Assignment
  | none
  | assign (name value : String)
  | malformed
  deriving DecidableEq

/-- The assignment of what stands after the name. -/
def Assignment.ofValue (env : Environment) (name cs : List Char) : Assignment :=
  match cs with
  | '=' :: rest =>
    let rest := rest.dropWhile Text.isBlank
    match rest with
    | [] | '#' :: _ => .assign (String.ofList name) ""
    | _ =>
      match value? env rest with
      | some v => .assign (String.ofList name) v
      | Option.none => .malformed
  | _ => .malformed

/-- Reads a line. The word `export` may stand in front of the name, and is a name itself when an
equals sign follows. -/
def Assignment.parse (env : Environment) (line : List Char) : Assignment :=
  match (Text.trim line) with
  | [] | '#' :: _ => .none
  | cs =>
    match name? cs with
    | Option.none => .malformed
    | some (name, rest) =>
      if name = "export".toList && rest.head? ≠ some '=' then
        match name? rest with
        | some (name, rest) => .ofValue env name rest
        | Option.none => .malformed
      else .ofValue env name rest

/-- Sets what lines assign, up to the first that assigns nothing it can. -/
def loadLines (env : Environment) : List (List Char) → Environment
  | [] => env
  | line :: rest =>
    match Assignment.parse env line with
    | .none => loadLines env rest
    | .assign name value => loadLines (env.setDefault name value) rest
    | .malformed => env

/-- Sets what the text of a file assigns. -/
def load (env : Environment) (text : String) : Environment := loadLines env (entries text)

end EventRelay.Environment.File
