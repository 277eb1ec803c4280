/-!
# File paths

A path is text; its parts stand between slashes, and parts that are empty or `.` do not count. A
path that begins with a slash is absolute.
-/

namespace EventRelay.Path

/-- Whether a path begins at the root. -/
def isAbsolute (p : String) : Bool := p.toList.head? = some '/'

/-- A path taken from a directory, unless it is absolute. -/
def join (directory p : String) : String :=
  if isAbsolute p || directory.isEmpty then p
  else if directory.toList.getLast? = some '/' then directory ++ p
  else directory ++ "/" ++ p

/-- The parts of a path that count. -/
def parts (p : String) : List (List Char) :=
  (p.toList.splitOn '/').filter fun c => !c.isEmpty && c ≠ ['.']

/-- The last part, unless the path ends by going up. -/
def fileName? (p : String) : Option (List Char) :=
  match (parts p).getLast? with
  | some ['.', '.'] => none
  | last => last

/-- What follows the last full stop of the file name, if something stands before it. -/
def extension? (p : String) : Option (List Char) := do
  let name ← fileName? p
  if !name.contains '.' then none
  else
    let ext := (name.reverse.takeWhile (· ≠ '.')).reverse
    if ext.length + 1 = name.length then none else some ext

/-- Whether the extension is `json`, in any case. -/
def isJson (p : String) : Bool :=
  match extension? p with
  | some ext => ext.map Char.toLower = "json".toList
  | none => false

/-- The characters up to the last part that counts, without the slashes and dots between. -/
def dropLast (cs : List Char) : List Char :=
  let rec back : (fuel : Nat) → List Char → List Char
    | 0, r => r
    | fuel + 1, r =>
      match r with
      | '/' :: rest => if rest.isEmpty then r else back fuel rest
      | '.' :: '/' :: rest => back fuel ('/' :: rest)
      | r => r
  let trailing := back cs.length cs.reverse
  let before := trailing.dropWhile (· ≠ '/')
  (back before.length before).reverse

/-- The directory of a path: the path without its last part. -/
def parent (p : String) : String := String.ofList (dropLast p.toList)

end EventRelay.Path
