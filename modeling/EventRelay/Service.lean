import EventRelay.Environment.File
import EventRelay.Launch

/-!
# Starting the relay

`start` takes the program from its arguments to its end. The environment comes first, then the file
of variables, then the arguments; with these the journal is set up and the relay launched.
-/

namespace EventRelay.Service

open CommandLine (Arguments Request UsageError)
open Launch (Network Outcome configPath)

/-- The file of variables. -/
def environmentFile : String := ".env"

/-- How a start ends. -/
inductive Ending
  /-- With the text that was asked for. -/
  | told (text : String)
  | misused (e : UsageError)
  /-- As the launch of the relay does. -/
  | launched (o : Outcome)
  deriving DecidableEq

/-- The text of an ending with errors: the first, and the others as its causes. -/
def report : (causes : List String) → String
  | [] => "Error"
  | [e] => "Error: " ++ e
  | [e, cause] => "Error: " ++ e ++ "\n\nCaused by:\n    " ++ cause
  | e :: causes =>
    "Error: " ++ e ++ "\n\nCaused by:" ++ String.join (causes.zipIdx.map fun (cause, i) =>
      "\n    " ++ Text.Decimal.ofNat i ++ ": " ++ cause)

/-- The variables that a start reads, apart from those that the configuration names. -/
def variableNames : List String :=
  ["IN_DOCKER", "LOG_DATA_DIR", "LOG_LEVEL", "LOG_MODE", "METRICS_ENABLED", "RELAY_CONFIG",
    "RUST_LOG"]

/-- The environment with the variables of the file, if there is one. -/
def withFile (files : FileTree) (env : Environment) : Environment :=
  match files.read environmentFile with
  | .ok (some text) => Environment.File.load env text
  | _ => env

/-- The environment with what the arguments say about variables that are not set. -/
def withArguments (a : Arguments) (env : Environment) : Environment :=
  let set (name : String) (value : Option String) (env : Environment) : Environment :=
    match value with
    | some v => env.setDefault name v
    | none => env
  let mode := if a.has .logFile then some "file" else none
  set "LOG_DATA_DIR" (a.value? .logPath) <| set "LOG_LEVEL" (a.value? .logLevel) <|
    set "LOG_MODE" mode <| set "RELAY_CONFIG" (a.value? .config) env

/-- The paths that a start goes by on a date, once the file of variables is known. -/
def paths (args : List String) (env : Environment) (files : FileTree) (date : String) :
    List String :=
  match CommandLine.read args with
  | .ok (.run a) =>
    let env := withArguments a (withFile files env)
    [configPath env, Path.join (Journal.directoryOf env) (Journal.fileName date)]
  | _ => []

/-- The paths of the contracts' descriptions that a configuration names. -/
def contractPaths (files : FileTree) (config : String) : List String :=
  match Config.load files config with
  | .error _ => []
  | .ok c => [Side.pub, .priv].filterMap fun side =>
    (c.chain side).abiPath.map fun path =>
      match c.directory with
      | some d => Path.join d path
      | none => path

/-- Starts the relay on a date, with its times after so many milliseconds: how that ends, and the
journal. -/
def start (network : Network) (interrupt : Option Nat) (args : List String) (env : Environment)
    (files : FileTree) (time : Nat → String) (date : String) : Ending × Journal :=
  let journal := Journal.off files
  match CommandLine.read args with
  | .error e => (.misused e, journal)
  | .ok .help => (.told CommandLine.helpText, journal)
  | .ok .version => (.told CommandLine.versionText, journal)
  | .ok (.run a) =>
    let env := withArguments a (withFile files env)
    let (_, journal) := journal.start env date
    let (outcome, told) := Launch.run (Launch.launch network interrupt a env journal.files)
    (.launched outcome, told.foldl (fun j (ms, r) => j.tell (time ms) r) journal)

end EventRelay.Service
