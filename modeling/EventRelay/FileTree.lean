import EventRelay.Path

/-!
# A tree of files

A `FileTree` holds the texts of files by their absolute paths. Looking up a path goes through its
parts from the root or, for a relative path, from the working directory; a part may go up, and what
has a part after it must be a directory. Directories are made and files written by places, the lists
of parts that paths lead to.
-/

namespace EventRelay

/-- Why the system refuses a path. -/
inductive OsError
  | notFound
  | alreadyExists
  | notADirectory
  | isADirectory
  | nameTooLong
  | nulByte
  deriving DecidableEq

/-- The text of the error. -/
def OsError.message : OsError → String
  | .notFound => "No such file or directory (os error 2)"
  | .alreadyExists => "File exists (os error 17)"
  | .notADirectory => "Not a directory (os error 20)"
  | .isADirectory => "Is a directory (os error 21)"
  | .nameTooLong => "File name too long (os error 36)"
  | .nulByte => "file name contained an unexpected NUL byte"

/-- The texts of files by the parts of their absolute paths, and directories without files. -/
structure FileTree where
  files : List (List (List Char) × String)
  directories : List (List (List Char))
  /-- Where relative paths begin. -/
  workingDirectory : List (List Char)

namespace FileTree

/-- What a path leads to. -/
inductive Node
  | file (parts : List (List Char)) (text : String)
  | directory (parts : List (List Char))

/-- What stands at a place. -/
def at? (t : FileTree) (place : List (List Char)) : Option Node :=
  match t.files.find? (·.1 = place) with
  | some (_, text) => some (.file place text)
  | none =>
    if place.isEmpty || t.files.any (fun f => place.isPrefixOf f.1) ||
        t.directories.any (fun d => place.isPrefixOf d) then
      some (.directory place)
    else none

/-- Goes on from a place through further parts. -/
def walk (t : FileTree) (place : List (List Char)) : List (List Char) → Except OsError Node
  | [] =>
    match t.at? place with
    | some n => .ok n
    | none => .error .notFound
  | part :: rest =>
    match t.at? place with
    | none => .error .notFound
    | some (.file ..) => .error .notADirectory
    | some (.directory _) =>
      if part.isEmpty || part = ['.'] then walk t place rest
      else if part = ['.', '.'] then walk t place.dropLast rest
      else if 255 < (String.ofList part).utf8ByteSize then .error .nameTooLong
      else walk t (place ++ [part]) rest

/-- What a path leads to. -/
def lookup (t : FileTree) (path : String) : Except OsError Node :=
  let cs := path.toList
  if cs.contains (Char.ofNat 0) then .error .nulByte
  else
    match cs.splitOn '/' with
    | [[]] => .error .notFound
    | [] :: parts => t.walk [] parts
    | parts => t.walk t.workingDirectory parts

/-- The text that opening a path and reading it gives; `none` when it is a directory, which opens
but cannot be read. -/
def read (t : FileTree) (path : String) : Except OsError (Option String) := do
  match ← t.lookup path with
  | .file _ text => pure (some text)
  | .directory _ => pure none

/-- Goes on from a place through further parts and makes the directories that are missing. -/
def makeFrom (t : FileTree) (place : List (List Char)) :
    List (List Char) → Except OsError (List (List Char) × FileTree)
  | [] => .ok (place, t)
  | part :: rest =>
    if part.isEmpty || part = ['.'] then t.makeFrom place rest
    else if part = ['.', '.'] then t.makeFrom place.dropLast rest
    else if 255 < (String.ofList part).utf8ByteSize then .error .nameTooLong
    else
      let next := place ++ [part]
      match t.at? next with
      | some (.file ..) =>
        .error (if rest.all (·.isEmpty) then .alreadyExists else .notADirectory)
      | some (.directory _) => t.makeFrom next rest
      | none => { t with directories := t.directories ++ [next] }.makeFrom next rest

/-- Makes a directory and those above it; returns its place. -/
def makeDirectories (t : FileTree) (path : String) :
    Except OsError (List (List Char) × FileTree) :=
  let cs := path.toList
  if cs.contains (Char.ofNat 0) then .error .nulByte
  else
    match cs.splitOn '/' with
    | [] :: part :: parts => t.makeFrom [] (part :: parts)
    | parts => t.makeFrom t.workingDirectory parts

/-- Makes an empty file at a place where there is none. -/
def touch (t : FileTree) (place : List (List Char)) : FileTree :=
  if t.files.any (·.1 = place) then t else { t with files := t.files ++ [(place, "")] }

/-- Adds text to the file at a place. -/
def append (t : FileTree) (place : List (List Char)) (text : String) : FileTree :=
  { t with files := t.files.map fun f => if f.1 = place then (f.1, f.2 ++ text) else f }

end FileTree

end EventRelay
