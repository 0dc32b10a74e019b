/-!
# Paths

A path is a text in which slashes separate names. These functions look at the text alone.
-/

namespace GraphQL.Path

/-- The names of a path and the empty texts around superfluous slashes. -/
def components (path : String) : List String := (path.toList.splitOn '/').map String.ofList

/-- The path of the entry `name` of the directory at `path`. A slash goes in between unless there
is one already. -/
def join (path name : String) : String :=
  if path.toList.getLast? = some '/' then path ++ name else path ++ "/" ++ name

/-- The names of a path without those that lead nowhere: the empty ones and the single points. -/
def names (path : String) : List String :=
  (components path).filter fun name => name ≠ "" ∧ name ≠ "."

/-- The name of what a path leads to, which is its last name. A path that ends on two points leads
to a directory further up, whose name it does not give. -/
def fileName? (path : String) : Option String := (names path).getLast?.filter (· ≠ "..")

/-- What follows the last point of a name. There is no extension if the name has no point, or only
one and that in front. -/
def extensionOf? (name : String) : Option String :=
  let reversed := name.toList.reverse
  match reversed.dropWhile (· ≠ '.') with
  | '.' :: _ :: _ => some (String.ofList (reversed.takeWhile (· ≠ '.')).reverse)
  | _ => none

/-- The extension of the file name. -/
def extension? (path : String) : Option String := (fileName? path).bind extensionOf?

end GraphQL.Path
