import EventRelay.Journal.Moment
import EventRelay.Service
import Std.Time

/-!
# The program

Gathers what a start depends on, the arguments, the variables, the files on its paths and the time,
starts the relay, and puts what came of it where it belongs.
-/

namespace EventRelay.Main

open Journal (Moment)

/-- The moment of a time. -/
def momentOf (time : Std.Time.PlainDateTime) : Moment where
  year := time.date.year.toInt.toNat
  month := time.date.month.val.toNat
  day := time.date.day.val.toNat
  hour := time.time.hour.val.toNat
  minute := time.time.minute.val.toNat
  second := time.time.second.val.toNat
  microsecond := time.time.nanosecond.val.toNat / 1000

/-- The present time, and what it is after so many milliseconds. -/
def present : IO (Nat → Moment) := do
  let now := Std.Time.PlainDateTime.ofWallTime
    ((← Std.Time.Timestamp.now).toWallTime Std.Time.TimeZone.Offset.zero)
  return fun ms => momentOf (now.addMilliseconds (.ofNat ms))

/-- The path that leads to a place. -/
def pathOf (place : List (List Char)) : String :=
  "/" ++ "/".intercalate (place.map String.ofList)

/-- Adds to a tree what stands at a place. A file whose text cannot be read stands there as a
directory does: it opens and gives nothing. -/
def gather (tree : FileTree) (place : List (List Char)) : IO FileTree := do
  match ← (IO.FS.Handle.mk (pathOf place) .read).toBaseIO with
  | .error _ => return tree
  | .ok file =>
    match ← file.readToEnd.toBaseIO with
    | .ok text => return { tree with files := tree.files ++ [(place, text)] }
    | .error _ => return { tree with directories := tree.directories ++ [place] }

/-- Adds to a tree what stands on the way of a path. -/
def gatherPath (tree : FileTree) (path : String) : IO FileTree := do
  let start := if Path.isAbsolute path then [] else tree.workingDirectory
  let (_, tree) ← (Path.parts path).foldlM (fun (place, tree) part => do
    let place := if part = ['.', '.'] then place.dropLast else place ++ [part]
    return (place, ← gather tree place)) (start, tree)
  return tree

/-- The words of a text that can be names of variables. -/
def names (text : String) : List String :=
  let step (c : Char) (words : List (List Char)) : List (List Char) :=
    match words with
    | word :: rest => if c.isAlphanum || c = '_' then (c :: word) :: rest else [] :: word :: rest
    | [] => [[c]]
  (text.toList.foldr step [[]]).map String.ofList

/-- The environment as far as it matters: the variables that a start reads, and those that a file
may name. -/
def environment (tree : FileTree) (file : String) : IO Environment := do
  let named := match tree.read file with
    | .ok (some text) => names text
    | _ => []
  let found ← (Service.variableNames ++ named).mapM fun name => do
    return (← IO.getEnv name).map fun value => (name, value)
  return found.filterMap id

/-- Makes the directories and writes the files that a start changed. -/
def keep (before after : FileTree) : IO Unit := do
  for place in after.directories do
    unless before.directories.contains place do IO.FS.createDirAll (pathOf place)
  for (place, text) in after.files do
    unless before.files.contains (place, text) do IO.FS.writeFile (pathOf place) text

/-- Starts the relay on a network, where it may be interrupted; the status says how that ended. -/
def run (network : Launch.Network) (interrupt : Option Nat) (args : List String) : IO UInt32 := do
  let after ← present
  let date := (after 0).date
  let working := Path.parts (← IO.currentDir).toString
  let tree ← gatherPath ⟨[], [working], working⟩ Service.environmentFile
  let env ← environment tree Service.environmentFile
  let paths := Service.paths args env tree date
  let tree ← paths.foldlM gatherPath tree
  let config := paths.headD Launch.defaultConfig
  let tree ← (Service.contractPaths tree config).foldlM gatherPath tree
  let env := env ++ (← environment tree config)
  let (ending, journal) :=
    Service.start network interrupt args env tree (fun ms => (after ms).text) date
  keep tree journal.files
  for line in journal.output do IO.println line
  match ending with
  | .told text => IO.print text; return 0
  | .misused e => IO.eprint e.text; return 2
  | .launched (.failed causes) => IO.eprintln (Service.report causes); return 1
  | .launched .stopped => return 0
  -- The status of a program that is killed by an interrupt.
  | .launched .waiting => return 130

end EventRelay.Main

/-- The relay between two chains. It comes without nodes. -/
def main (args : List String) : IO UInt32 := EventRelay.Main.run .empty none args
