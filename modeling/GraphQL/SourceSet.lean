import GraphQL.FileSystem
import GraphQL.Parse

/-!
# Source sets

A source set collects named texts, from memory or from a file tree, and parses them one after
another into one set of files. A path that leads to a file adds that file, whatever its name. Any
other path adds the files found below it whose extension is one of those configured; files that
do not match are not even read. What was added before something went wrong stays in the set.
-/

namespace GraphQL

/-- A text and the name under which it is parsed. -/
structure Source where
  name : String
  text : String
  deriving DecidableEq, Repr, Inhabited

/-- What can go wrong with a source set. -/
inductive LoadError where
  /-- A file could not be read. -/
  | unreadable (path : String) (e : FileTree.PathError)
  /-- The bytes of a file are not the encoding of a text. -/
  | notText (path : String)
  /-- A path could not be listed to the end. -/
  | listing (e : FileTree.ListingError)
  /-- A source was rejected. -/
  | parse (e : ParseError)
  deriving DecidableEq, Repr, Inhabited

/-- The text of a load error. -/
def LoadError.message : LoadError → String
  | unreadable path e => s!"failed to read {Text.quoted path}: {e.message}"
  | notText path =>
    s!"failed to read {Text.quoted path}: stream did not contain valid UTF-8"
  | listing e => e.message
  | parse e => e.message

/-- Sources with the extensions to look for and the options to parse with. -/
structure SourceSet where
  extensions : List String := ["graphql", "graphqls"]
  options : ParserOptions := default
  sources : List Source := []
  deriving DecidableEq, Repr, Inhabited

/-- What adding paths to a set leaves behind. -/
structure Loading where
  /-- The set with everything that was added. -/
  set : SourceSet
  /-- What stopped the loading early. -/
  error? : Option LoadError
  /-- What there is to log. -/
  events : List Event

namespace Loading

/-- The loading with something to log before all else. -/
def logged (l : Loading) (e : Event) : Loading := { l with events := e :: l.events }

/-- The set, unless the loading was stopped. -/
def result (l : Loading) : Except LoadError SourceSet :=
  match l.error? with
  | none => .ok l.set
  | some e => .error e

end Loading

namespace SourceSet

/-- Looks for other extensions. Points in front of an extension are ignored. -/
def withExtensions (s : SourceSet) (extensions : List String) : SourceSet :=
  { s with extensions := extensions.map fun e => String.ofList (e.toList.dropWhile (· = '.')) }

/-- Parses with other options. -/
def withOptions (s : SourceSet) (options : ParserOptions) : SourceSet :=
  { s with options := options }

/-- Adds a text from memory. -/
def addSource (s : SourceSet) (x : Source) : SourceSet := { s with sources := s.sources ++ [x] }

/-- The extension of the path is one that the set looks for. -/
def matchesExtension (s : SourceSet) (path : String) : Bool :=
  (Path.extension? path).any s.extensions.contains

/-- Adds the file with the given path; `contents` is what reading it gives. -/
def load (s : SourceSet) (path : String) (contents : Except FileTree.PathError ByteArray) :
    Except LoadError SourceSet :=
  match contents with
  | .error e => .error (.unreadable path e)
  | .ok bytes =>
    match String.fromUTF8? bytes with
    | some text => .ok (s.addSource ⟨path, text⟩)
    | none => .error (.notText path)

/-- Adds the matching files of a listing, up to the first that cannot be loaded. -/
def addVisits (s : SourceSet) (error? : Option FileTree.ListingError) :
    List FileTree.Visit → Loading
  | [] => { set := s, error? := error?.map .listing, events := [] }
  | v :: vs =>
    match v.contents? with
    | none => (s.addVisits error? vs).logged (.passedNonFile v.path)
    | some contents =>
      if s.matchesExtension v.path then
        match s.load v.path contents with
        | .ok s => (s.addVisits error? vs).logged (.found v.path)
        | .error e => { set := s, error? := some e, events := [.found v.path] }
      else (s.addVisits error? vs).logged (.passedFile v.path)

/-- Adds what a path leads to: a file whatever its name, and otherwise the matching files of the
listing. -/
def addTarget (s : SourceSet) (path : String) : FileSystem.Target → Loading
  | .file contents =>
    let events : List Event :=
      if s.matchesExtension path then [.scanning path]
      else [.scanning path, .unmatched path s.extensions]
    match s.load path contents with
    | .ok s => { set := s, error? := none, events := events }
    | .error e => { set := s, error? := some e, events := events }
  | .other listing => (s.addVisits listing.error? listing.visits).logged (.scanning path)

/-- Adds the file that a path leads to, or the matching files below it. -/
def addPath (s : SourceSet) (system : FileSystem) (path : String) : Loading :=
  s.addTarget path (system.target path)

/-- Adds paths one after another, up to the first that fails. -/
def addPaths (s : SourceSet) (system : FileSystem) : List String → Loading
  | [] => { set := s, error? := none, events := [] }
  | path :: paths =>
    let first := s.addPath system path
    match first.error? with
    | some _ => first
    | none =>
      let others := first.set.addPaths system paths
      { others with events := first.events ++ others.events }

/-- A new set with all that the paths lead to, unless one of them fails, and what there is to
log. -/
def fromPaths (system : FileSystem) (paths : List String) :
    Except LoadError SourceSet × List Event :=
  let l := addPaths {} system paths
  (l.result, l.events)

/-- Parses sources one after another with the given parser, up to the first that is rejected. -/
def parseEach {α : Type}
    (parse : Source → FileSet → Except Violation (Outcome ParseError α)) :
    List Source → FileSet → Except Violation (Outcome LoadError (List α))
  | [], files => .ok { result := .ok [], files := files, events := [] }
  | x :: xs, files => do
    let first ← parse x files
    match first.result with
    | .error e =>
      return { result := .error (.parse e), files := first.files, events := first.events }
    | .ok tree =>
      let others ← parseEach parse xs first.files
      return { result := others.result.map (tree :: ·)
               files := others.files
               events := first.events ++ others.events }

/-- Parses all sources as schema documents. -/
def parseSchemas (s : SourceSet) (files : FileSet) :
    Except Violation (Outcome LoadError (List Schema)) := do
  let o ← parseEach (fun x => Schema.parse x.text (some x.name) s.options) s.sources files
  return { o with events := .parsingAll .schema s.sources.length :: o.events }

/-- Parses all sources as executable documents. -/
def parseDocuments (s : SourceSet) (files : FileSet) :
    Except Violation (Outcome LoadError (List Document)) := do
  let o ← parseEach (fun x => Document.parse x.text (some x.name) s.options) s.sources files
  return { o with events := .parsingAll .document s.sources.length :: o.events }

end SourceSet

end GraphQL
