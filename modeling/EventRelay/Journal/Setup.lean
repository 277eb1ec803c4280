import EventRelay.Environment
import EventRelay.FileTree
import EventRelay.Journal.Line

/-!
# Setting the journal up

The environment says where records go, standard output or a file of the day, and which are shown. A
process sets its journal up once; a second setup fails.
-/

namespace EventRelay

/-- Where records go. -/
inductive Journal.Sink
  | stdout
  | file (place : List (List Char))

/-- The journal of a process. -/
structure Journal where
  /-- What is shown and where it goes, once that is set up. -/
  setup : Option (Journal.Filter × Journal.Sink)
  /-- The lines on standard output. -/
  output : List String
  /-- The files, those of the journal among them. -/
  files : FileTree

namespace Journal

/-- Why a journal cannot be set up. -/
inductive SetupError
  | os (e : OsError)
  | alreadySet
  deriving DecidableEq

/-- The text of the error. -/
def SetupError.message : SetupError → String
  | .os e => e.message
  | .alreadySet => "a global default trace dispatcher has already been set"

/-- The journal before any setup. -/
def off (files : FileTree) : Journal := ⟨none, [], files⟩

/-- The directory of log files where none is given. -/
def defaultDirectory : String := "logs/"

/-- The start of the name of a log file; the date follows. -/
def fileName (date : String) : String := "relay.log." ++ date

/-- The filter when the environment has no valid one. -/
def defaultFilter : Filter := [⟨none, Level.info.rank, false⟩]

/-- The filter of an environment: the first valid one of two variables. -/
def filterOf (env : Environment) : Filter :=
  let given (name : String) : Option Filter := (env.get? name).bind Filter.parse?
  match given "RUST_LOG" with
  | some f => f
  | none => (given "LOG_LEVEL").getD defaultFilter

/-- The directory of log files. -/
def directoryOf (env : Environment) : String := (env.get? "LOG_DATA_DIR").getD defaultDirectory

/-- Whether an environment asks for a file. -/
def wantsFile (env : Environment) : Bool :=
  match env.get? "LOG_MODE" with
  | some mode => mode.toList.map Char.toLower = "file".toList
  | none => false

/-- Sets the journal up on a sink, unless it is. -/
def install (j : Journal) (filter : Filter) (sink : Sink) : Except SetupError Unit × Journal :=
  match j.setup with
  | some _ => (.error .alreadySet, j)
  | none => (.ok (), { j with setup := some (filter, sink) })

/-- Sets the journal up as the environment says. -/
def start (j : Journal) (env : Environment) (date : String) :
    Except SetupError Unit × Journal :=
  if wantsFile env then
    match j.files.makeDirectories (directoryOf env) with
    | .error e => (.error (.os e), j)
    | .ok (place, files) =>
      let place := place ++ [(fileName date).toList]
      let j := { j with files := files.touch place }
      j.install (filterOf env) (.file place)
  else j.install (filterOf env) .stdout

/-- Tells a record. -/
def tell (j : Journal) (time : String) (r : Record) : Journal :=
  match j.setup with
  | none => j
  | some (filter, sink) =>
    if filter.shows r.target r.level then
      let line := r.line time
      match sink with
      | .stdout => { j with output := j.output ++ [line] }
      | .file place => { j with files := j.files.append place (line ++ "\n") }
    else j

end Journal

end EventRelay
