import GraphQL.Proofs.Parsing.Relocation
import GraphQL.Proofs.Parsing.Stability
import Mathlib.Algebra.GroupWithZero.Nat
import Mathlib.Data.List.Forall2

/-!
# Sources are parsed one by one

The sources of a set share one set of files, but what becomes of one source does not depend on those
before it: it is what becomes of the source in a set of files of its own, moved to the positions
that its file has got. The first source that is rejected ends the parsing, and those behind it are
not even registered.

Results:
1. `parse_beside`: a text is parsed next to other files as it is parsed alone.
2. `parseEach_as_alone`: so are texts one after another.
3. `parseAll_as_alone`: the same for the sources of a set, as documents or as schemas.
-/

namespace GraphQL

/-- What the source is parsed to in a set of files of its own. -/
def Source.alone (kind : SourceKind) (options : ParserOptions) (x : Source) :
    Except Violation (Outcome ParseError Parsed) :=
  parse kind x.text (some x.name) options {}

/-- The file is that of the source, and the meaning is what the source means alone, at the place
of the file. -/
structure Source.ParsesTo (kind : SourceKind) (options : ParserOptions) (x : Source)
    (row : File × Parsed) : Prop where
  name : row.1.name = x.name
  size : row.1.size = x.text.utf8ByteSize
  meaning : ∃ parsed, Outcome.meaning? (x.alone kind options) = some parsed ∧
    Parsed.Relocated ((row.1.base : Int) - 1) parsed row.2

/-- The set of files has positions left for all texts. -/
def FileSet.HasRoomForAll (files : FileSet) (xs : List Source) : Prop :=
  files.base + (xs.map fun x => x.text.utf8ByteSize + 1).sum ≤ FileSet.maxPos

/-- Parses all sources of the set as texts of the given kind. -/
def SourceSet.parseAll (kind : SourceKind) (s : SourceSet) (files : FileSet) :
    Except Violation (Outcome LoadError (List Parsed)) :=
  match kind with
  | .document => (s.parseDocuments files).map (·.map (·.map .document))
  | .schema => (s.parseSchemas files).map (·.map (·.map .schema))

/-- What it means that the sources have been parsed one by one into the set of files. -/
structure SourceSet.OneByOne (kind : SourceKind) (options : ParserOptions) (xs : List Source)
    (files : FileSet) (o : Outcome LoadError (List Parsed)) : Prop where
  /-- The set of files is one that can be made. -/
  built : o.files.Built
  /-- If all of them are accepted alone, there is a tree and a new file for each. -/
  accepted : (∀ x ∈ xs, ∃ parsed, Outcome.meaning? (x.alone kind options) = some parsed) →
    ∃ row : List (File × Parsed), o.result = .ok (row.map Prod.snd) ∧
      o.files.files.toList = files.files.toList ++ row.map Prod.fst ∧
      List.Forall₂ (Source.ParsesTo kind options) xs row
  /-- The error of the first one that is rejected alone is the result, and there is a new file for
  this one and for each of those in front of it, but for no other. -/
  rejected : ∀ front x back e, xs = front ++ x :: back →
    (∀ y ∈ front, ∃ parsed, Outcome.meaning? (y.alone kind options) = some parsed) →
    Outcome.error? (x.alone kind options) = some e →
    o.result = .error (.parse e) ∧
      ∃ added : List File, o.files.files.toList = files.files.toList ++ added ∧
        added.map (fun f => (f.name, f.size)) =
          (front ++ [x]).map fun y => (y.name, y.text.utf8ByteSize)

theorem Outcome.error?_eq_none_of_meaning? {α : Type}
    {r : Except Violation (Outcome ParseError α)} {a : α} (h : meaning? r = some a) :
    error? r = none := by
  obtain ⟨o, rfl, hr⟩ := exists_of_meaning? h
  simp only [error?, Except.toOption, Option.bind_some, hr]

namespace FileSet

variable {files : FileSet} {x : Source} {xs : List Source} {f : File}

theorem HasRoomForAll.first (room : files.HasRoomForAll (x :: xs)) : files.HasRoom x.text := by
  unfold HasRoomForAll at room
  rw [List.map_cons, List.sum_cons] at room
  unfold HasRoom
  omega

theorem HasRoomForAll.others (room : files.HasRoomForAll (x :: xs))
    (size : f.size = x.text.utf8ByteSize) : (files.push f).HasRoomForAll xs := by
  unfold HasRoomForAll at room ⊢
  rw [List.map_cons, List.sum_cons] at room
  show files.base + f.size + 1 + _ ≤ maxPos
  omega

end FileSet

/-- A text is parsed next to other files as it is parsed alone, apart from the place. -/
theorem parse_beside (kind : SourceKind) (source : String) (name : Option String)
    (options : ParserOptions) {files : FileSet} (built : files.Built)
    (room : files.HasRoom source) :
    ∃ o f, parse kind source name options files = .ok o ∧ o.files = files.push f ∧
      (files.nextFile name source).SameRange f ∧ o.files.Built ∧
      ((∃ parsed parsed', Outcome.meaning? (parse kind source name options {}) = some parsed ∧
          o.result = .ok parsed' ∧ Parsed.Relocated ((files.base : Int) - 1) parsed parsed') ∨
        ∃ e, Outcome.error? (parse kind source name options {}) = some e ∧
          o.result = .error e) := by
  obtain ⟨o, f, ho, pushed, range, stays⟩ := parse_registers kind source name options room
  refine ⟨o, f, ho, pushed, range, stays built, ?_⟩
  have positive := built.ordered.positive
  have positive₁ : 0 < FileSet.base {} := Nat.zero_lt_one
  have room₁ : FileSet.HasRoom {} source := by
    have := room
    unfold FileSet.HasRoom at this ⊢
    show 1 + source.utf8ByteSize + 1 ≤ FileSet.maxPos
    omega
  have same (n : Nat) (i : Nat) (_ : i < n) : tape source files.base (i + 0) =
      (tape source 1 i).shift ((files.base : Int) - 1) :=
    tape_shift source Nat.zero_lt_one i
  rcases reads_or_stops kind source options.maxDepth 1 with ⟨ts, c, reads⟩ | ⟨fault, c, stops⟩
  · have reads' := reads.moved (same c.seen) 0 (Nat.le_refl _)
    rw [Cursor.moved_zero, Cursor.moved_zero] at reads'
    obtain ⟨o₁, ho₁, hr₁, -⟩ := parse_reads name room₁ reads
    obtain ⟨o', ho', hr, -⟩ := parse_reads name room reads'
    obtain rfl := Except.ok.inj (ho.symm.trans ho')
    exact .inl ⟨_, _, Outcome.meaning?_of_result ho₁ hr₁, hr,
      relocated_of_reads positive₁ positive reads reads'⟩
  · have stops' := stops.moved (same c.seen) 0 (Nat.le_refl _)
    rw [Cursor.moved_zero, Cursor.moved_zero] at stops'
    obtain ⟨o₁, e₁, ho₁, he₁, -, reported₁, -⟩ := parse_stops name room₁ stops
    obtain ⟨o', e, ho', he, -, reported, -⟩ := parse_stops name room stops'
    obtain rfl := Except.ok.inj (ho.symm.trans ho')
    obtain rfl : e₁ = e :=
      (eq_error_of_reportedAt name positive₁ stops.index_lt_seen reported₁).trans
        (eq_error_of_reportedAt name positive stops'.index_lt_seen reported).symm
    exact .inr ⟨e₁, Outcome.error?_of_result ho₁ he₁, he⟩

namespace SourceSet

section Each

variable {α β : Type} {p : Source → FileSet → Except Violation (Outcome ParseError α)} {x : Source}
  {xs : List Source} {files : FileSet} {first : Outcome ParseError α}

theorem parseEach_cons_of_ok (hx : p x files = .ok first) {a : α} (hr : first.result = .ok a) :
    parseEach p (x :: xs) files =
      (parseEach p xs first.files).map fun others =>
        { result := others.result.map (a :: ·)
          files := others.files
          events := first.events ++ others.events } := by
  rw [parseEach, hx]
  simp only [bind, Except.bind, hr]
  cases parseEach p xs first.files <;> rfl

theorem parseEach_cons_of_error (hx : p x files = .ok first) {e : ParseError}
    (he : first.result = .error e) :
    parseEach p (x :: xs) files =
      .ok { result := .error (.parse e), files := first.files, events := first.events } := by
  rw [parseEach, hx]
  simp only [bind, Except.bind, he]
  rfl

/-- It does not matter whether each meaning or all of them are brought into another form. -/
theorem parseEach_map (g : α → β) :
    parseEach (fun x files => (p x files).map (·.map g)) xs files =
      (parseEach p xs files).map (·.map (·.map g)) := by
  induction xs generalizing files with
  | nil => rfl
  | cons x xs ih =>
    cases hx : p x files with
    | error v => simp only [parseEach, hx, Except.map, bind, Except.bind]
    | ok first =>
      have hx' : (p x files).map (·.map g) = .ok (first.map g) := by rw [hx]; rfl
      cases hr : first.result with
      | error e =>
        rw [parseEach_cons_of_error hx hr,
          parseEach_cons_of_error (p := fun x files => (p x files).map (·.map g)) hx'
            (by rw [Outcome.result_map, hr]; rfl)]
        rfl
      | ok a =>
        rw [parseEach_cons_of_ok hx hr,
          parseEach_cons_of_ok (p := fun x files => (p x files).map (·.map g)) hx'
            (by rw [Outcome.result_map, hr]; rfl)]
        show Except.map _ (parseEach _ xs first.files) = _
        rw [ih]
        rcases parseEach p xs first.files with _ | ⟨_ | _, _, _⟩ <;> rfl

end Each

/-- Parsing all sources of a set is parsing each of them as a text of the kind. -/
theorem parseAll_eq (kind : SourceKind) (s : SourceSet) (files : FileSet) :
    s.parseAll kind files =
      (parseEach (fun x => parse kind x.text (some x.name) s.options) s.sources files).map
        fun o => { o with events := .parsingAll kind s.sources.length :: o.events } := by
  cases kind with
  | document =>
    have each :
        parseEach (fun x => parse .document x.text (some x.name) s.options) s.sources files =
          (parseEach (fun x => Document.parse x.text (some x.name) s.options) s.sources files).map
            (·.map (·.map .document)) :=
      parseEach_map Parsed.document
    rw [parseAll, parseDocuments, each]
    rcases parseEach _ s.sources files with _ | ⟨_ | _, _, _⟩ <;> rfl
  | schema =>
    have each :
        parseEach (fun x => parse .schema x.text (some x.name) s.options) s.sources files =
          (parseEach (fun x => Schema.parse x.text (some x.name) s.options) s.sources files).map
            (·.map (·.map .schema)) :=
      parseEach_map Parsed.schema
    rw [parseAll, parseSchemas, each]
    rcases parseEach _ s.sources files with _ | ⟨_ | _, _, _⟩ <;> rfl

section OneByOne

variable {kind : SourceKind} {options : ParserOptions} {x : Source} {xs : List Source}
  {files : FileSet} {f : File}

theorem OneByOne.nil (built : files.Built) {events : List Event} :
    OneByOne kind options [] files { result := .ok [], files := files, events := events } :=
  ⟨built, fun _ => ⟨[], rfl, (List.append_nil _).symm, .nil⟩,
    fun front x back e split => absurd split.symm (by simp)⟩

/-- A source that is accepted comes in front of the others. -/
theorem OneByOne.cons {others : Outcome LoadError (List Parsed)}
    (h : OneByOne kind options xs (files.push f) others) {tree : Parsed}
    (parses : x.ParsesTo kind options (f, tree)) {events : List Event} :
    OneByOne kind options (x :: xs) files
      { result := others.result.map (tree :: ·), files := others.files, events := events } := by
  obtain ⟨built, accepted, rejected⟩ := h
  rw [FileSet.push, Array.toList_push] at accepted rejected
  refine ⟨built, fun all => ?_, ?_⟩
  · obtain ⟨rows, trees, appended, related⟩ :=
      accepted fun y hy => all y (List.mem_cons_of_mem x hy)
    refine ⟨(f, tree) :: rows, by simp only [trees]; rfl, ?_, .cons parses related⟩
    rw [appended, List.append_assoc]
    rfl
  · rintro (_ | ⟨y, front⟩) z back e split all failed
    · obtain ⟨rfl, rfl⟩ := List.cons.inj split
      obtain ⟨parsed, alone, -⟩ := parses.meaning
      cases failed.symm.trans (Outcome.error?_eq_none_of_meaning? alone)
    · obtain ⟨rfl, rfl⟩ := List.cons.inj split
      obtain ⟨error, added, appended, same⟩ :=
        rejected front z back e rfl (fun w hw => all w (List.mem_cons_of_mem _ hw)) failed
      refine ⟨by simp only [error]; rfl, f :: added, ?_, ?_⟩
      · rw [appended, List.append_assoc]
        rfl
      · rw [List.map_cons, same, parses.name, parses.size]
        rfl

/-- No source behind one that is rejected plays a part. -/
theorem OneByOne.stop (built : (files.push f).Built) {e : ParseError}
    (failed : Outcome.error? (x.alone kind options) = some e) (name : f.name = x.name)
    (size : f.size = x.text.utf8ByteSize) {events : List Event} :
    OneByOne kind options (x :: xs) files
      { result := .error (.parse e), files := files.push f, events := events } := by
  -- the source is not one that is accepted alone
  have refused : ¬ ∃ parsed, Outcome.meaning? (x.alone kind options) = some parsed := by
    rintro ⟨parsed, alone⟩
    cases failed.symm.trans (Outcome.error?_eq_none_of_meaning? alone)
  refine ⟨built, fun all => absurd (all x List.mem_cons_self) refused, ?_⟩
  rintro (_ | ⟨y, front⟩) z back e' split all failed'
  · obtain ⟨rfl, rfl⟩ := List.cons.inj split
    obtain rfl := Option.some.inj (failed.symm.trans failed')
    refine ⟨rfl, [f], Array.toList_push, ?_⟩
    rw [List.map_singleton, name, size]
    rfl
  · obtain ⟨rfl, -⟩ := List.cons.inj split
    exact absurd (all _ List.mem_cons_self) refused

variable (kind options) in
/-- Texts that are parsed one after another are parsed one by one. -/
theorem parseEach_as_alone (built : files.Built) (room : files.HasRoomForAll xs) :
    ∃ o, parseEach (fun x => parse kind x.text (some x.name) options) xs files = .ok o ∧
      OneByOne kind options xs files o := by
  induction xs generalizing files with
  | nil => exact ⟨_, rfl, .nil built⟩
  | cons x xs ih =>
    obtain ⟨first, f, ho, pushed, ⟨name, base, size⟩, stays, outcome⟩ :=
      parse_beside kind x.text (some x.name) options built room.first
    rcases outcome with ⟨parsed, tree, alone, hr, relocated⟩ | ⟨e, alone, he⟩
    · obtain ⟨others, hs, h⟩ := ih stays (pushed ▸ room.others size)
      have parses : x.ParsesTo kind options (f, tree) :=
        ⟨name, size, parsed, alone, base.symm ▸ relocated⟩
      have run : parseEach (fun x => parse kind x.text (some x.name) options) (x :: xs) files = _ :=
        parseEach_cons_of_ok ho hr
      rw [hs] at run
      exact ⟨_, run, (pushed ▸ h).cons parses⟩
    · refine ⟨_, parseEach_cons_of_error ho he, ?_⟩
      rw [pushed] at stays ⊢
      exact .stop stays alone name size

end OneByOne

/-- The sources of a set are parsed like each of them alone. If all are accepted alone, the result
is the list of their trees, each at the place of its file, and one file after another has been put
behind those that were there. If one is rejected alone, the error of the first such source is the
result, and files have been put there up to the one of this source. -/
theorem parseAll_as_alone (kind : SourceKind) (s : SourceSet) {files : FileSet}
    (built : files.Built) (room : files.HasRoomForAll s.sources) :
    ∃ o, s.parseAll kind files = .ok o ∧ OneByOne kind s.options s.sources files o := by
  obtain ⟨o, ho, built', accepted, rejected⟩ := parseEach_as_alone kind s.options built room
  have run := s.parseAll_eq kind files
  rw [ho] at run
  exact ⟨_, run, built', accepted, rejected⟩

/-- The second one of three sources is rejected: its error gives its name and its own lines, and the
third source is not registered. -/
theorem parseAll_as_alone_second :
    let s : SourceSet :=
      { sources := [⟨"s.graphql", "scalar S"⟩, ⟨"t.graphql", "\nscalar"⟩, ⟨"u.graphql", "type U"⟩] }
    let files : FileSet := FileSet.register {} "q.graphql" 3
    files.Built ∧ files.HasRoomForAll s.sources ∧
      ∃ o, s.parseAll .schema files = .ok o ∧
        o.result = .error (.parse (.unexpectedToken ⟨"t.graphql", 7, 2, 7⟩ "NAME" "EOF")) ∧
        o.files.files.toList.map (fun f => (f.name, f.size)) =
          [("q.graphql", 3), ("s.graphql", 8), ("t.graphql", 7)] := by
  intro s files
  have built : files.Built := FileSet.Built.empty.register "q.graphql" 3
  have room : files.HasRoomForAll s.sources := by
    unfold FileSet.HasRoomForAll
    decide +kernel
  have accepted :
      (Outcome.meaning? (Source.alone .schema s.options ⟨"s.graphql", "scalar S"⟩)).isSome := by
    decide +kernel
  have failed : Outcome.error? (Source.alone .schema s.options ⟨"t.graphql", "\nscalar"⟩) =
      some (.unexpectedToken ⟨"t.graphql", 7, 2, 7⟩ "NAME" "EOF") := by
    decide +kernel
  obtain ⟨o, ho, -, -, rejected⟩ := parseAll_as_alone .schema s built room
  obtain ⟨error, added, appended, same⟩ :=
    rejected [⟨"s.graphql", "scalar S"⟩] ⟨"t.graphql", "\nscalar"⟩ [⟨"u.graphql", "type U"⟩] _ rfl
      (by simpa using Option.isSome_iff_exists.mp accepted) failed
  refine ⟨built, room, o, ho, error, ?_⟩
  rw [appended, List.map_append, same]
  decide +kernel

end SourceSet

end GraphQL
