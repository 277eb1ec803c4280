import EventRelay.CommandLine.Switch

/-!
# Reading the command line

`read` takes the arguments in order. A switch that takes a value waits for it: the value is what
follows an equals sign, or the next argument unless that begins with a hyphen. A switch that still
waits when the next one comes, or at the end, lacks its value. Help and version are answered as
soon as they are met.
-/

namespace EventRelay.CommandLine

/-- What is wrong with the arguments. -/
inductive UsageError
  /-- An argument that is no switch; the switch that was perhaps meant, and the usage to show. -/
  | unexpected (arg : String) (meant : Option Switch) (used : List Switch)
  | noValue (s : Switch)
  | repeated (s : Switch)
  | unexpectedValue (value : String) (s : Switch) (used : List Switch)
  deriving DecidableEq

/-- The text of the error. -/
def UsageError.text (e : UsageError) : String :=
  let first := match e with
    | .unexpected arg meant _ =>
      let hint := match meant with
        | some s => "  tip: a similar argument exists: '" ++ s.flag ++ "'\n\n"
        | none => ""
      "unexpected argument '" ++ arg ++ "' found\n\n" ++ hint
    | .noValue s => "a value is required for '" ++ s.usage ++ "' but none was supplied\n\n"
    | .repeated s => "the argument '" ++ s.usage ++ "' cannot be used multiple times\n\n"
    | .unexpectedValue v s _ =>
      "unexpected value '" ++ v ++ "' for '" ++ s.flag ++ "' found; no more were expected\n\n"
  let usage := match e with
    | .unexpected _ _ used | .unexpectedValue _ _ used => usageLine used ++ "\n"
    | .repeated _ => usageLine [] ++ "\n"
    | .noValue _ => ""
  "error: " ++ first ++ usage ++ "For more information, try '--help'.\n"

/-- The switches given, each with its value. -/
abbrev Arguments := List (Switch × String)

/-- Whether a switch was given. -/
def Arguments.has (a : Arguments) (s : Switch) : Bool := a.any (·.1 = s)

/-- The value given for a switch. -/
def Arguments.value? (a : Arguments) (s : Switch) : Option String :=
  (a.find? (·.1 = s)).map (·.2)

/-- The switches with one more, unless it is among them. -/
def Arguments.switches (a : Arguments) (s : Option Switch) : List Switch :=
  let given := a.map (·.1)
  match s with
  | some s => if given.contains s then given else given ++ [s]
  | none => given

/-- What is asked of the program. -/
inductive Request
  | run (a : Arguments)
  | help
  | version
  deriving DecidableEq

/-- The reader between two arguments. -/
structure Reading where
  given : Arguments
  /-- The last switch that takes a value, not yet counted as given, and its value. -/
  pending : Option (Switch × Option String)

namespace Reading

/-- Counts a switch as given. -/
def add (r : Reading) (s : Switch) (value : String) : Except UsageError Reading :=
  if r.given.has s then .error (.repeated s)
  else .ok { r with given := r.given ++ [(s, value)] }

/-- Counts the pending switch as given. -/
def settle (r : Reading) : Except UsageError Reading :=
  match r.pending with
  | none => .ok r
  | some (s, none) => .error (.noValue s)
  | some (s, some v) => { r with pending := none }.add s v

/-- What is given when another error is found; a switch given twice does not count then. -/
def settled (r : Reading) : Arguments :=
  match r.settle with
  | .ok r => r.given
  | .error (.repeated s) => r.given.filter (·.1 ≠ s)
  | .error _ => r.given

/-- Takes a long switch and what follows its equals sign. -/
def takeLong (r : Reading) (name : String) (value : Option String) :
    Except UsageError (Reading ⊕ Request) := do
  match Switch.ofName? name with
  | none =>
    let meant := Switch.similar? name
    throw (.unexpected ("--" ++ name) meant (r.settled.switches meant))
  | some s =>
    match s.valueName?, value with
    | none, some v => throw (.unexpectedValue v s (r.given.switches (some s)))
    | some _, none => return .inl { (← r.settle) with pending := some (s, none) }
    | some _, some v => return .inl (← (← r.settle).add s v)
    | none, none =>
      let r ← r.settle
      match s with
      | .help => return .inr .help
      | .version => return .inr .version
      | _ => return .inl (← r.add s "")

/-- Takes short switches; the first decides, since each of them ends the reading. -/
def takeShort (r : Reading) (c : Char) : Except UsageError Request := do
  match Switch.ofLetter? c with
  | none => throw (.unexpected ("-" ++ String.ofList [c]) none [])
  | some s =>
    let _ ← r.settle
    if s = .version then pure .version else pure .help

/-- Takes an argument that is no switch. -/
def takePlain (r : Reading) (arg : String) : Except UsageError Reading :=
  match r.pending with
  | some (s, none) => .ok { r with pending := some (s, some arg) }
  | _ => .error (.unexpected arg none [])

/-- Reads the arguments from here on. -/
def go (r : Reading) : List String → Except UsageError Request
  | [] => return .run (← r.settle).given
  | arg :: rest => do
    match arg.toList with
    | ['-', '-'] =>
      match rest with
      | [] => return .run (← r.settle).given
      | x :: _ => throw (.unexpected x none [])
    | '-' :: '-' :: cs =>
      let value := match cs.dropWhile (· ≠ '=') with
        | [] => none
        | _ :: v => some (String.ofList v)
      match ← r.takeLong (String.ofList (cs.takeWhile (· ≠ '='))) value with
      | .inl r => r.go rest
      | .inr request => return request
    | '-' :: c :: _ => r.takeShort c
    | _ => (← r.takePlain arg).go rest

end Reading

/-- What the arguments ask for. -/
def read (args : List String) : Except UsageError Request := Reading.go ⟨[], none⟩ args

end EventRelay.CommandLine
