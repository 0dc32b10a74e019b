import GraphQL.FileTree.Basic
import GraphQL.FileTree.Path

/-!
# Resolving paths

A path is followed name by name from the root. Every name but the last has to lead to a
directory, and so has the last one if a slash comes behind it. A link is replaced by the path it
points to; a path that leads through too many of them is taken to go round in circles.
-/

namespace GraphQL.FileTree

/-- Why a path does not lead where it should. -/
inductive PathError where
  /-- Nothing lies there. -/
  | notFound
  /-- The path goes on behind something that is not a directory. -/
  | notDirectory
  /-- The path leads through too many links. -/
  | tooManyLinks
  /-- A name on the path, or the path as a whole, is longer than any can be. -/
  | nameTooLong
  /-- The path contains the character NUL, which no name can. -/
  | containsNul
  /-- A directory lies where a file was asked for. -/
  | isDirectory
  /-- Anything else, in the words of the system. -/
  | other (reason : String)
  deriving DecidableEq, Repr, Inhabited

/-- The text of a path error, with its number if it has one. -/
def PathError.message : PathError → String
  | notFound => "No such file or directory (os error 2)"
  | notDirectory => "Not a directory (os error 20)"
  | tooManyLinks => "Too many levels of symbolic links (os error 40)"
  | nameTooLong => "File name too long (os error 36)"
  | containsNul => "file name contained an unexpected NUL byte"
  | isDirectory => "Is a directory (os error 21)"
  | other reason => reason

/-- How many links one path may lead through. -/
def maxLinks : Nat := 40

/-- How many bytes a name may have. -/
def maxNameSize : Nat := 255

/-- How many bytes a path may have. -/
def maxPathSize : Nat := 4095

/-- The location that the rest of a path leads to from the location `here`, following links and
at most `links` of them. -/
def follow (t : FileTree) (links : Nat) (here : List String) :
    List String → Except PathError (List String)
  | [] => .ok here
  | name :: names =>
    if !t.isDirectory here then .error .notDirectory
    else if name = "" ∨ name = "." then follow t links here names
    else if name = ".." then follow t links here.dropLast names
    else if maxNameSize < name.utf8ByteSize then .error .nameTooLong
    else
      match t.entryAt? (here ++ [name]) with
      | none => .error .notFound
      | some (.link target) =>
        match links with
        | 0 => .error .tooManyLinks
        | links + 1 => follow t links here (Path.components target ++ names)
      | some _ => follow t links (here ++ [name]) names
termination_by names => (links, names.length)

/-- The location that a path leads to, following links. -/
def resolve (t : FileTree) (path : String) : Except PathError (List String) :=
  if path.contains '\x00' then .error .containsNul
  else if path = "" then .error .notFound
  else if maxPathSize < path.utf8ByteSize then .error .nameTooLong
  else t.follow maxLinks [] (Path.components path)

/-- The bytes of the file that a path leads to. -/
def read (t : FileTree) (path : String) : Except PathError ByteArray := do
  match t.entryAt? (← t.resolve path) with
  | some (.file bytes) => .ok bytes
  | _ => .error .isDirectory

/-- Goes into the directory `name`, which is made if nothing lies there. -/
def enterDirectory (t : FileTree) (here : List String) (name : String) :
    FileTree × List String :=
  match t.follow maxLinks here [name] with
  | .ok location => (t, location)
  | .error _ => (t.set (here ++ [name]) .directory, here ++ [name])

/-- Goes down a row of directories, which are made where nothing lies. -/
def enterDirectories (t : FileTree) (here : List String) : List String → FileTree × List String
  | [] => (t, here)
  | name :: names =>
    let (t, here) := t.enterDirectory here name
    t.enterDirectories here names

/-- Puts an entry at the end of a path, along with the directories on the way there. A directory
that is already there stays as it is. -/
def put (t : FileTree) (path : String) (e : Entry) : FileTree :=
  let names := Path.names path
  match names.getLast? with
  | none => t
  | some name =>
    let (t, here) := t.enterDirectories [] names.dropLast
    match e with
    | .directory => (t.enterDirectory here name).1
    | e => t.set (here ++ [name]) e

end GraphQL.FileTree
