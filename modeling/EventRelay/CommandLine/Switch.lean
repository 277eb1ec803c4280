import EventRelay.CommandLine.Likeness

/-!
# The switches of the command line

Each switch has a long name; some take a value, two also have a short name. The text of the help
lists them all.
-/

namespace EventRelay.CommandLine

/-- What may be given on the command line. -/
inductive Switch
  | config
  | logFile
  | logLevel
  | logPath
  | metricsAddress
  | metrics
  | help
  | version
  deriving DecidableEq

namespace Switch

/-- All switches, in the order in which they are listed. -/
def all : List Switch :=
  [.config, .logFile, .logLevel, .logPath, .metricsAddress, .metrics, .help, .version]

/-- The long name. -/
def name : Switch → String
  | .config => "config"
  | .logFile => "log-file"
  | .logLevel => "log-level"
  | .logPath => "log-path"
  | .metricsAddress => "metrics-address"
  | .metrics => "metrics"
  | .help => "help"
  | .version => "version"

/-- The short name. -/
def letter? : Switch → Option Char
  | .help => some 'h'
  | .version => some 'V'
  | _ => none

/-- What the value is called, for switches that take one. -/
def valueName? : Switch → Option String
  | .config => some "PATH"
  | .logLevel => some "LEVEL"
  | .logPath => some "PATH"
  | .metricsAddress => some "HOST:PORT"
  | _ => none

/-- What the switch is for. -/
def purpose : Switch → String
  | .config => "Path to the relay configuration (default: config/relay.json)"
  | .logFile => "Write logs to file instead of stdout"
  | .logLevel => "Set log level (trace, debug, info, warn, error)"
  | .logPath => "Path to store log files (default: logs/)"
  | .metricsAddress => "Address to start the metrics server on (default: 127.0.0.1:8081)"
  | .metrics => "Enable metrics server"
  | .help => "Print help"
  | .version => "Print version"

/-- The long name as it is given. -/
def flag (s : Switch) : String := "--" ++ s.name

/-- The switch with its value. -/
def usage (s : Switch) : String :=
  match s.valueName? with
  | some v => s.flag ++ " <" ++ v ++ ">"
  | none => s.flag

/-- The switch of a long name. -/
def ofName? (name : String) : Option Switch := all.find? (·.name = name)

/-- The switch of a short name. -/
def ofLetter? (c : Char) : Option Switch := all.find? (·.letter? = some c)

/-- The switch whose name is most like a word, if one is like it at all; of two the later. -/
def similar? (word : String) : Option Switch :=
  let best := all.foldl (fun (best : Option (Float × Switch)) s =>
    let l := likeness word s.name
    if l > 0.7 then
      match best with
      | some (b, _) => if b > l then best else some (l, s)
      | none => some (l, s)
    else best) none
  best.map (·.2)

end Switch

/-- The name of the program. -/
def programName : String := "cross-chain-relay"

/-- What the program does. -/
def about : String :=
  "Relays events emitted by a contract on a public chain to a contract on a private chain, and " ++
    "relays selected results back."

/-- What is printed for `--version`. -/
def versionText : String := programName ++ " 0.1.0\n"

/-- A text followed by blanks up to a width. -/
def padded (width : Nat) (s : String) : String :=
  s ++ String.ofList (List.replicate (width - s.length) ' ')

/-- The line of the help about a switch. -/
def helpLine (s : Switch) : String :=
  let short := match s.letter? with
    | some c => "  -" ++ String.ofList [c] ++ ", "
    | none => "      "
  let width := (Switch.all.map (·.usage.length)).foldl max 0
  short ++ padded width s.usage ++ "  " ++ s.purpose ++ "\n"

/-- The first line of the usage with the switches that matter. -/
def usageLine (used : List Switch) : String :=
  let what := match used with
    | [] => ["[OPTIONS]"]
    | _ => used.map (·.usage)
  "Usage: " ++ " ".intercalate (programName :: what) ++ "\n"

/-- What is printed for `--help`. -/
def helpText : String :=
  about ++ "\n\n" ++ usageLine [] ++ "\nOptions:\n" ++ String.join (Switch.all.map helpLine)

end EventRelay.CommandLine
