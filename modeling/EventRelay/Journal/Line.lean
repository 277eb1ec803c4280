import EventRelay.Journal.Filter

/-!
# The line of a record

A line holds the time, the level, the target, the message and the fields, with the colours of a
terminal. Characters that could steer a terminal are written out in messages.
-/

namespace EventRelay.Journal

/-- Something to be told. -/
structure Record where
  level : Level
  target : String
  message : String
  fields : List (String × String)

/-- The character that begins a colour. -/
def esc : Char := Char.ofNat 0x1B

/-- A text in a colour or style, which ends with it. -/
def styled (style : String) (text : String) : String :=
  String.ofList (esc :: '[' :: (style ++ "m" ++ text).toList ++ [esc, '[', '0', 'm'])

/-- The colour of a level. -/
def Level.colour : Level → String
  | .error => "31"
  | .warn => "33"
  | .info => "32"
  | .debug => "34"
  | .trace => "35"

/-- The name of a level in five columns. -/
def Level.column (l : Level) : String :=
  String.ofList (List.replicate (5 - l.name.length) ' ') ++ l.name

/-- A character of a message. -/
def messageChar (c : Char) : List Char :=
  let n := c.toNat
  if [0x07, 0x08, 0x0C, 0x1B, 0x7F].contains n then
    ['\\', 'x', Nat.digitChar (n / 16), Nat.digitChar (n % 16)]
  else if 0x80 ≤ n ∧ n ≤ 0x9F then
    '\\' :: 'u' :: '\x7b' :: (Nat.toDigits 16 n ++ ['\x7d'])
  else [c]

/-- The text of a message. -/
def messageText (s : String) : String := String.ofList (s.toList.flatMap messageChar)

/-- The line of a record at a time. -/
def Record.line (time : String) (r : Record) : String :=
  let fields := r.fields.map fun (name, value) => ", " ++ styled "1" name ++ ": " ++ value
  styled "2" time ++ " " ++ styled r.level.colour r.level.column ++ " " ++ styled "2" r.target ++
    styled "2" ":" ++ " " ++ messageText r.message ++ String.join fields

end EventRelay.Journal
