import GraphQL.SourceSet
import Mathlib.Data.List.Forall2
import Mathlib.Data.List.TakeWhile

/-!
# What loading leaves behind

A path is loaded into a set step by step, and what has been added stays in the set when something
goes wrong. The statements below say exactly what that is. They hold in every file system: a
listing may be any row of visits with any error behind it, and any file may turn out not to be
readable.

Results:
1. `Path.extension?_eq_some_iff`: the extension of a path, by the shape of the file name.
2. `loadsAs_addVisits`: the wanted files of a listing are added in order, up to the first that
   cannot be loaded.
3. `addVisits_reread`: of the files of a listing, no others are read.
4. `result_addPaths`: several paths are added one after another, up to the first that fails.
5. `addPath_leaves`: all that together, for a set and a path.
-/

namespace GraphQL

/-! ## Extensions -/

namespace Path

/-- The file name is a stem, a point and the extension, with no further point behind that one. -/
def HasExtension (path e : String) : Prop :=
  ∃ stem, stem ≠ "" ∧ '.' ∉ e.toList ∧ fileName? path = some (stem ++ "." ++ e)

theorem extensionOf?_append {stem e : String} (filled : stem ≠ "") (noPoint : '.' ∉ e.toList) :
    extensionOf? (stem ++ "." ++ e) = some e := by
  have reversed : (stem ++ "." ++ e).toList.reverse =
      e.toList.reverse ++ '.' :: stem.toList.reverse := by simp
  have ext : ∀ c ∈ e.toList.reverse, decide (c ≠ '.') = true := fun c hc =>
    decide_eq_true fun same => noPoint (same ▸ List.mem_reverse.mp hc)
  obtain ⟨c, front, hc⟩ : ∃ c front, stem.toList.reverse = c :: front :=
    List.exists_cons_of_ne_nil (by simpa using filled)
  have behind : (stem ++ "." ++ e).toList.reverse.takeWhile (· ≠ '.') = e.toList.reverse := by
    rw [reversed, List.takeWhile_append_of_pos ext]
    exact List.append_nil _
  have inFront : (stem ++ "." ++ e).toList.reverse.dropWhile (· ≠ '.') = '.' :: c :: front := by
    rw [reversed, hc, List.dropWhile_append_of_pos ext]
    rfl
  unfold extensionOf?
  simp only [behind, inFront, List.reverse_reverse, String.ofList_toList]

theorem exists_stem_of_extensionOf? {name e : String} (h : extensionOf? name = some e) :
    ∃ stem, stem ≠ "" ∧ '.' ∉ e.toList ∧ name = stem ++ "." ++ e := by
  have parts := name.toList.reverse.takeWhile_append_dropWhile (p := (· ≠ '.'))
  unfold extensionOf? at h
  dsimp only at h
  split at h
  case h_1 c front inFront =>
    obtain rfl := Option.some.inj h
    rw [inFront] at parts
    refine ⟨String.ofList (c :: front).reverse, ?_, ?_, ?_⟩
    · simp [← String.toList_inj]
    · intro point
      rw [String.toList_ofList, List.mem_reverse] at point
      simpa using List.mem_takeWhile_imp point
    · apply String.ext
      simpa using congrArg List.reverse parts.symm
  case h_2 => cases h

theorem extension?_eq_some_iff {path e : String} :
    extension? path = some e ↔ HasExtension path e := by
  rw [extension?, Option.bind_eq_some_iff]
  constructor
  · rintro ⟨name, found, h⟩
    obtain ⟨stem, filled, noPoint, rfl⟩ := exists_stem_of_extensionOf? h
    exact ⟨stem, filled, noPoint, found⟩
  · rintro ⟨stem, filled, noPoint, found⟩
    exact ⟨_, found, extensionOf?_append filled noPoint⟩

end Path

/-! ## Files and their texts -/

theorem fromUTF8?_eq_some_iff {bytes : ByteArray} {text : String} :
    String.fromUTF8? bytes = some text ↔ text.toUTF8 = bytes := by
  unfold String.fromUTF8?
  constructor
  · intro h
    split at h
    · exact Option.some.inj h ▸ rfl
    · cases h
  · rintro rfl
    exact dif_pos text.isValidUTF8

/-- Why a file cannot be loaded: reading it fails, or what that gives is not the encoding of any
text. -/
inductive LoadError.Explains (path : String) :
    Except FileTree.PathError ByteArray → LoadError → Prop
  | unreadable (e : FileTree.PathError) : Explains path (.error e) (.unreadable path e)
  | notText {bytes : ByteArray} (noText : ∀ text : String, text.toUTF8 ≠ bytes) :
      Explains path (.ok bytes) (.notText path)

theorem LoadError.exists_text_or_explains (path : String)
    (contents : Except FileTree.PathError ByteArray) :
    (∃ text : String, contents = .ok text.toUTF8) ∨ ∃ e : LoadError, e.Explains path contents := by
  rcases contents with e | bytes
  · exact .inr ⟨_, .unreadable e⟩
  · by_cases h : ∃ text : String, text.toUTF8 = bytes
    · obtain ⟨text, rfl⟩ := h
      exact .inl ⟨text, rfl⟩
    · exact .inr ⟨_, .notText fun text same => h ⟨text, same⟩⟩

/-! ## Visits -/

namespace FileTree.Visit

variable {extensions : List String} {v : Visit}

/-- The visit is of a file with one of the extensions. -/
def IsWanted (extensions : List String) (v : Visit) : Prop :=
  v.contents?.isSome ∧ ∃ e ∈ extensions, Path.HasExtension v.path e

/-- The source has the path of the visited file for a name, and reading the file gives its text. -/
def Gives (v : Visit) (x : Source) : Prop :=
  x.name = v.path ∧ v.contents? = some (.ok x.text.toUTF8)

/-- The visited file cannot be loaded, for the reason that the error states. -/
def FailsWith (v : Visit) (e : LoadError) : Prop :=
  ∃ contents, v.contents? = some contents ∧ e.Explains v.path contents

instance : Decidable (v.IsWanted extensions) :=
  decidable_of_iff (v.contents?.isSome ∧ ∃ e ∈ extensions, Path.extension? v.path = some e)
    (by simp only [IsWanted, Path.extension?_eq_some_iff])

theorem gives_or_failsWith (wanted : v.IsWanted extensions) :
    (∃ x, v.Gives x) ∨ ∃ e, v.FailsWith e := by
  obtain ⟨contents, h⟩ := Option.isSome_iff_exists.mp wanted.1
  rcases LoadError.exists_text_or_explains v.path contents with ⟨text, rfl⟩ | ⟨e, reason⟩
  · exact .inl ⟨⟨v.path, text⟩, rfl, h⟩
  · exact .inr ⟨e, contents, h, reason⟩

/-- The visit with something else as what reading it gives, unless it is of a wanted file. -/
def reread (extensions : List String) (instead : Visit → Except PathError ByteArray) (v : Visit) :
    Visit :=
  if v.IsWanted extensions then v else { v with contents? := v.contents?.map fun _ => instead v }

section Reread

variable (instead : Visit → Except PathError ByteArray)

theorem reread_of_isWanted (wanted : v.IsWanted extensions) : v.reread extensions instead = v :=
  if_pos wanted

theorem path_reread : (v.reread extensions instead).path = v.path := by
  unfold reread
  split <;> rfl

theorem isSome_contents?_reread :
    (v.reread extensions instead).contents?.isSome = v.contents?.isSome := by
  unfold reread
  split
  · rfl
  · exact Option.isSome_map

theorem isWanted_reread :
    (v.reread extensions instead).IsWanted extensions ↔ v.IsWanted extensions := by
  simp only [IsWanted, path_reread, isSome_contents?_reread]

end Reread

end FileTree.Visit

/-! ## Listings -/

namespace FileTree.Listing

/-- What it means that these are the sources that loading a listing adds, and that this is how the
loading ends. -/
inductive LoadsAs (extensions : List String) (l : Listing) (added : List Source) :
    Option LoadError → Prop
  /-- All wanted files give their sources. Then only the listing itself may have failed. -/
  | through (sources : List.Forall₂ Visit.Gives (l.visits.filter (·.IsWanted extensions)) added) :
      LoadsAs extensions l added (l.error?.map .listing)
  /-- A wanted file cannot be loaded, while all wanted files in front of it give their sources. -/
  | stopped {front back : List Visit} {v : Visit} {e : LoadError}
      (split : l.visits = front ++ v :: back)
      (sources : List.Forall₂ Visit.Gives (front.filter (·.IsWanted extensions)) added)
      (wanted : v.IsWanted extensions) (failed : v.FailsWith e) :
      LoadsAs extensions l added (some e)

variable {extensions : List String} {v : Visit} {vs : List Visit} {error? : Option ListingError}
  {added : List Source} {stop? : Option LoadError}

/-- What is not wanted in front of a listing does not change how it is loaded. -/
theorem LoadsAs.passed (passed : ¬ v.IsWanted extensions)
    (h : (⟨vs, error?⟩ : Listing).LoadsAs extensions added stop?) :
    (⟨v :: vs, error?⟩ : Listing).LoadsAs extensions added stop? := by
  have skipped (row : List Visit) :
      (v :: row).filter (·.IsWanted extensions) = row.filter (·.IsWanted extensions) :=
    List.filter_cons_of_neg (by simpa using passed)
  cases h with
  | through sources =>
    exact .through (l := ⟨v :: vs, error?⟩) (by rwa [skipped])
  | @stopped front back w e split sources wanted failed =>
    have split' : v :: vs = (v :: front) ++ w :: back := congrArg (v :: ·) split
    refine .stopped split' ?_ wanted failed
    rwa [skipped]

/-- A wanted file in front of a listing gives the first source, if it can be loaded. -/
theorem LoadsAs.gives {x : Source} (wanted : v.IsWanted extensions) (given : v.Gives x)
    (h : (⟨vs, error?⟩ : Listing).LoadsAs extensions added stop?) :
    (⟨v :: vs, error?⟩ : Listing).LoadsAs extensions (x :: added) stop? := by
  have kept (row : List Visit) :
      (v :: row).filter (·.IsWanted extensions) = v :: row.filter (·.IsWanted extensions) :=
    List.filter_cons_of_pos (by simpa using wanted)
  cases h with
  | through sources =>
    refine .through (l := ⟨v :: vs, error?⟩) ?_
    rw [kept]
    exact .cons given sources
  | @stopped front back w e split sources wanted' failed =>
    have split' : v :: vs = (v :: front) ++ w :: back := congrArg (v :: ·) split
    refine .stopped split' ?_ wanted' failed
    rw [kept]
    exact .cons given sources

end FileTree.Listing

/-! ## Targets of paths -/

namespace FileSystem

/-- What it means that these are the sources that loading a path adds, and that this is how the
loading ends. -/
inductive Target.LoadsAs (extensions : List String) (path : String) :
    Target → List Source → Option LoadError → Prop
  /-- A file is loaded whatever its extension. -/
  | file (text : String) : LoadsAs extensions path (.file (.ok text.toUTF8)) [⟨path, text⟩] none
  /-- A file that cannot be loaded adds nothing. -/
  | failed {contents : Except FileTree.PathError ByteArray} {e : LoadError}
      (reason : e.Explains path contents) : LoadsAs extensions path (.file contents) [] (some e)
  /-- Anything else is loaded as what a listing of the path comes by. -/
  | other {l : FileTree.Listing} {added : List Source} {error? : Option LoadError}
      (listed : l.LoadsAs extensions added error?) :
      LoadsAs extensions path (.other l) added error?

variable (extensions : List String)
  (instead : FileTree.Visit → Except FileTree.PathError ByteArray)

/-- The target of a path, with something else as what reading the listed files gives, unless they
are wanted. -/
def Target.reread : Target → Target
  | .file contents => .file contents
  | .other l => .other { l with visits := l.visits.map (·.reread extensions instead) }

/-- The file system with something else as what reading listed files gives, unless they are
wanted. -/
def reread (system : FileSystem) : FileSystem :=
  ⟨fun path => (system.target path).reread extensions instead⟩

end FileSystem

namespace SourceSet

variable {s : SourceSet} {v : FileTree.Visit} {vs : List FileTree.Visit} {path : String}
  {error? : Option FileTree.ListingError}

/-! ## Loading one file -/

theorem load_text (s : SourceSet) (path text : String) :
    s.load path (.ok text.toUTF8) = .ok (s.addSource ⟨path, text⟩) := by
  simp only [load, fromUTF8?_eq_some_iff.mpr rfl]

theorem load_of_explains {contents : Except FileTree.PathError ByteArray} {e : LoadError}
    (h : e.Explains path contents) : s.load path contents = .error e := by
  cases h with
  | unreadable e => rfl
  | @notText bytes noText =>
    have undecodable : String.fromUTF8? bytes = none :=
      Option.eq_none_iff_forall_ne_some.mpr fun text h => noText text (fromUTF8?_eq_some_iff.mp h)
    simp only [load, undecodable]

theorem matchesExtension_iff :
    s.matchesExtension path = true ↔ ∃ e ∈ s.extensions, Path.HasExtension path e := by
  simp only [matchesExtension, Option.any_eq_true, List.contains_iff_mem,
    Path.extension?_eq_some_iff, and_comm]

/-! ## Loading a listing -/

theorem addVisits_of_not_isWanted (passed : ¬ v.IsWanted s.extensions) :
    s.addVisits error? (v :: vs) = (s.addVisits error? vs).logged
      (if v.contents?.isSome then .passedFile v.path else .passedNonFile v.path) := by
  cases h : v.contents? with
  | none =>
    simp only [addVisits, h]
    rfl
  | some contents =>
    have unmatched : ¬ s.matchesExtension v.path = true := fun found =>
      passed ⟨by rw [h]; rfl, matchesExtension_iff.mp found⟩
    simp only [addVisits, h, if_neg unmatched]
    rfl

theorem addVisits_of_gives {x : Source} (wanted : v.IsWanted s.extensions) (given : v.Gives x) :
    s.addVisits error? (v :: vs) = ((s.addSource x).addVisits error? vs).logged (.found v.path) := by
  obtain ⟨name, text⟩ := x
  obtain ⟨rfl, h⟩ := given
  simp only [addVisits, h, matchesExtension_iff.mpr wanted.2, if_true, load_text]

theorem addVisits_of_failsWith {e : LoadError} (wanted : v.IsWanted s.extensions)
    (failed : v.FailsWith e) :
    s.addVisits error? (v :: vs) = { set := s, error? := some e, events := [.found v.path] } := by
  obtain ⟨contents, h, reason⟩ := failed
  simp only [addVisits, h, matchesExtension_iff.mpr wanted.2, if_true, load_of_explains reason]

variable (s) in
/-- Loading a listing adds the sources of its wanted files, up to the first that cannot be loaded,
and ends with the error of that file, or else with that of the listing. -/
theorem loadsAs_addVisits (l : FileTree.Listing) :
    ∃ added, (s.addVisits l.error? l.visits).set = { s with sources := s.sources ++ added } ∧
      l.LoadsAs s.extensions added (s.addVisits l.error? l.visits).error? := by
  obtain ⟨visits, error?⟩ := l
  -- the set grows from visit to visit, but keeps its extensions, and so what is wanted stays
  induction visits generalizing s with
  | nil => exact ⟨[], by simp only [addVisits, List.append_nil], .through .nil⟩
  | cons v vs ih =>
    by_cases wanted : v.IsWanted s.extensions
    · rcases v.gives_or_failsWith wanted with ⟨x, given⟩ | ⟨e, failed⟩
      · obtain ⟨added, set, loads⟩ := ih (s.addSource x)
        rw [addVisits_of_gives wanted given]
        refine ⟨x :: added, ?_, .gives wanted given loads⟩
        simpa only [Loading.logged, addSource, List.append_assoc, List.singleton_append] using set
      · rw [addVisits_of_failsWith wanted failed]
        have split : v :: vs = [] ++ v :: vs := rfl
        exact ⟨[], by rw [List.append_nil], .stopped split .nil wanted failed⟩
    · obtain ⟨added, set, loads⟩ := ih s
      rw [addVisits_of_not_isWanted wanted]
      exact ⟨added, set, .passed wanted loads⟩

/-- It makes no difference what reading a file gives that is not wanted. -/
theorem addVisits_reread (instead : FileTree.Visit → Except FileTree.PathError ByteArray)
    (vs : List FileTree.Visit) :
    s.addVisits error? (vs.map (·.reread s.extensions instead)) = s.addVisits error? vs := by
  induction vs generalizing s with
  | nil => rfl
  | cons v vs ih =>
    rw [List.map_cons]
    by_cases wanted : v.IsWanted s.extensions
    · rw [v.reread_of_isWanted instead wanted]
      rcases v.gives_or_failsWith wanted with ⟨x, given⟩ | ⟨e, failed⟩
      · rw [addVisits_of_gives wanted given, addVisits_of_gives wanted given]
        exact congrArg (Loading.logged · _) (ih (s := s.addSource x))
      · rw [addVisits_of_failsWith wanted failed, addVisits_of_failsWith wanted failed]
    · rw [addVisits_of_not_isWanted ((v.isWanted_reread instead).not.mpr wanted),
        addVisits_of_not_isWanted wanted, ih, v.path_reread, v.isSome_contents?_reread]

/-! ## Loading paths -/

variable (s path) in
theorem loadsAs_addTarget (target : FileSystem.Target) :
    ∃ added, (s.addTarget path target).set = { s with sources := s.sources ++ added } ∧
      target.LoadsAs s.extensions path added (s.addTarget path target).error? := by
  cases target with
  | file contents =>
    rcases LoadError.exists_text_or_explains path contents with ⟨text, rfl⟩ | ⟨e, reason⟩
    · simp only [addTarget, load_text]
      exact ⟨[⟨path, text⟩], rfl, .file text⟩
    · simp only [addTarget, load_of_explains reason]
      exact ⟨[], by rw [List.append_nil], .failed reason⟩
  | other l =>
    obtain ⟨added, set, loads⟩ := s.loadsAs_addVisits l
    exact ⟨added, set, .other loads⟩

theorem addTarget_reread (instead : FileTree.Visit → Except FileTree.PathError ByteArray)
    (target : FileSystem.Target) :
    s.addTarget path (target.reread s.extensions instead) = s.addTarget path target := by
  cases target with
  | file contents => rfl
  | other l => simp only [FileSystem.Target.reread, addTarget, addVisits_reread]

/-- Adding several paths is adding each of them to what the ones before have left, up to the first
that fails. -/
theorem result_addPaths (system : FileSystem) (paths : List String) :
    (s.addPaths system paths).result =
      paths.foldlM (fun s path => (s.addPath system path).result) s := by
  induction paths generalizing s with
  | nil => rfl
  | cons path paths ih =>
    rw [List.foldlM_cons]
    cases stop : (s.addPath system path).error? with
    | none =>
      have first : (s.addPath system path).result = .ok (s.addPath system path).set := by
        simp only [Loading.result, stop]
      rw [first]
      show _ = List.foldlM _ (s.addPath system path).set paths
      rw [← ih]
      simp only [addPaths, stop]
      rfl
    | some e =>
      have first : (s.addPath system path).result = .error e := by
        simp only [Loading.result, stop]
      rw [first]
      show _ = Except.error e
      simp only [addPaths, stop, first]

/-- Adding a path to a set leaves the sources that were there in front. Behind them come the sources
that loading the target of the path adds, and the call fails if that does, with the same error.
What reading a listed file gives that is not wanted makes no difference to anything. A set made
from paths is what adding them one after another to a new set leaves, unless one of them fails, and
then there is only the error of that one. -/
theorem addPath_leaves (s : SourceSet) (system : FileSystem) (path : String) :
    (∃ added, (s.addPath system path).set = { s with sources := s.sources ++ added } ∧
      (system.target path).LoadsAs s.extensions path added (s.addPath system path).error?) ∧
    (∀ instead, s.addPath (system.reread s.extensions instead) path = s.addPath system path) ∧
    ∀ paths, (fromPaths system paths).1 =
      paths.foldlM (fun s path => (s.addPath system path).result) {} :=
  ⟨s.loadsAs_addTarget path (system.target path),
    fun instead => addTarget_reread instead (system.target path),
    fun paths => result_addPaths system paths⟩

/-- A file that is not wanted may be unreadable. One that is wanted and is not text ends the
loading, and what was added in front of it stays. -/
example :
    let listing : FileTree.Listing :=
      { visits := [⟨"d", none⟩, ⟨"d/a.graphql", some (.ok "scalar A".toUTF8)⟩,
          ⟨"d/b.txt", some (.error (.other "Permission denied (os error 13)"))⟩,
          ⟨"d/c.graphql", some (.ok ⟨#[0xFF]⟩)⟩,
          ⟨"d/e.graphql", some (.ok "scalar E".toUTF8)⟩] }
    let l := SourceSet.addPath { sources := [⟨"s", "scalar S"⟩] } ⟨fun _ => .other listing⟩ "d"
    l.set.sources = [⟨"s", "scalar S"⟩, ⟨"d/a.graphql", "scalar A"⟩] ∧
      l.error? = some (.notText "d/c.graphql") := by
  decide +kernel

end SourceSet

end GraphQL
