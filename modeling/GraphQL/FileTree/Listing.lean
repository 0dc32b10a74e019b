import GraphQL.FileTree.Resolve

/-!
# Listing a path

A listing goes over everything that a path leads to: the thing itself, and for a directory its
entries in the order of their names, with the contents of each directory right behind it. Links
are followed. A link to a directory that the listing is inside of would never end; it is an error,
and so is a path that leads nowhere. A listing stops at its first error.

Whether an entry of a directory is a file, a directory or a link is known without following any
path. Reading a file, opening a directory and following a link, in contrast, resolve the whole
path anew, and that may fail: a listing can go deeper than a path may be long.
-/

namespace GraphQL.FileTree

/-- Why a listing stopped early. -/
inductive ListingError where
  /-- The path leads nowhere. -/
  | unreachable (path : String) (e : PathError)
  /-- The path is a link to the directory that the listing entered as `ancestor`. -/
  | loop (path ancestor : String)
  deriving DecidableEq, Repr, Inhabited

/-- The text of a listing error. -/
def ListingError.message : ListingError → String
  | unreachable path e => s!"IO error for operation on {path}: {e.message}"
  | loop path ancestor => s!"File system loop found: {path} points to an ancestor {ancestor}"

/-- Something that a listing came by. -/
structure Visit where
  /-- The path it was reached by. -/
  path : String
  /-- What reading it gives if it is a file; none for a directory. -/
  contents? : Option (Except PathError ByteArray)
  deriving Inhabited

/-- What a listing came by, and the error that stopped it if one did. -/
structure Listing where
  visits : List Visit := []
  error? : Option ListingError := none
  deriving Inhabited

namespace Listing

/-- One listing and then another, unless the first one stopped early. -/
def andThen (a b : Listing) : Listing :=
  match a.error? with
  | some _ => a
  | none => { visits := a.visits ++ b.visits, error? := b.error? }

/-- Several listings one after another. -/
def concat : List Listing → Listing
  | [] => {}
  | l :: ls => l.andThen (concat ls)

end Listing

/-- A directory that a listing is inside of: where it lies and the path it was entered by. -/
structure OpenDirectory where
  location : List String
  path : String
  deriving DecidableEq, Repr, Inhabited

/-- Lists what lies at a location that was reached by `path`. `inside` are the directories around
it, the nearest first. No more than `depth` directories are opened inside one another. -/
def list (t : FileTree) (depth : Nat) (inside : List OpenDirectory) (path : String)
    (location : List String) : Listing :=
  match t.entryAt? location with
  | some (.file _) => { visits := [⟨path, some (t.read path)⟩] }
  | some .directory =>
    match depth, t.resolve path with
    | 0, _ => {}
    | _ + 1, .error e => { visits := [⟨path, none⟩], error? := some (.unreachable path e) }
    | depth + 1, .ok _ =>
      let inside := ⟨location, path⟩ :: inside
      let entry (name : String) : Listing :=
        let child := Path.join path name
        match t.entryAt? (location ++ [name]) with
        | some (.link _) =>
          match t.resolve child with
          | .error e => { error? := some (.unreachable child e) }
          | .ok target =>
            match inside.find? (·.location = target) with
            | some ancestor => { error? := some (.loop child ancestor.path) }
            | none => list t depth inside child target
        | _ => list t depth inside child (location ++ [name])
      ({ visits := [⟨path, none⟩] } : Listing).andThen
        (.concat ((t.namesIn location).map entry))
  | _ => { error? := some (.unreachable path .notFound) }

/-- Lists everything that a path leads to. Between two links that it follows, a listing can only
go down, and no link leads back to an open directory; this bounds how many can be open. -/
def listing (t : FileTree) (path : String) : Listing :=
  match t.resolve path with
  | .error e => { error? := some (.unreachable path e) }
  | .ok location =>
    let locations := t.entries.length + 2
    t.list (locations * locations) [] path location

end GraphQL.FileTree
