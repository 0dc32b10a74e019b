import GraphQL.Proofs.Files.Growth
import GraphQL.Proofs.Parsing.Positions
import GraphQL.SourceSet
import Mathlib.Logic.Relation

/-!
# Positions keep their meaning

A set of files can be given new files, with whatever line starts, and texts can be parsed into it,
alone or as a set of sources, with success or without. Each of these calls puts new files behind the
others and does nothing else to the set. So a position that has been resolved once, in an error or
for a tree that has been kept, is resolved to the same place ever after.

Results:
1. `parse_registers`: a parse puts one file behind the others, whatever becomes of the text.
2. `Call.growsTo`: what one call may do to a set.
3. `positions_stable`: what any number of calls leaves as it was.
-/

namespace GraphQL

theorem exists_of_bind_eq_ok {ε α β : Type} {r : Except ε α} {f : α → Except ε β} {b : β}
    (h : r >>= f = .ok b) : ∃ a, r = .ok a ∧ f a = .ok b := by
  cases r with
  | error _ => cases h
  | ok a => exact ⟨a, rfl, h⟩

section Registration

variable (kind : SourceKind) (source : String) (name : Option String) (options : ParserOptions)
  {files : FileSet}

/-- A parse registers one file for its text, whether the text is accepted or not. -/
theorem parse_registers (room : files.HasRoom source) :
    ∃ o f, parse kind source name options files = .ok o ∧ o.files = files.push f ∧
      (files.nextFile name source).SameRange f ∧ (files.Built → o.files.Built) := by
  have same (n : Nat) :=
    Lexer.sameRange_after (Lexer.ofSource source (files.nextFile name source)) n
  rcases reads_or_stops kind source options.maxDepth files.base with
    ⟨ts, c, reads⟩ | ⟨fault, c, stops⟩
  · obtain ⟨o, ho, -, hf⟩ := parse_reads name room reads
    exact ⟨o, _, ho, hf, same c.seen, fun built => hf ▸ built_push_after name built room c.seen⟩
  · obtain ⟨o, e, ho, -, hf, -⟩ := parse_stops name room stops
    exact ⟨o, _, ho, hf, same c.seen, fun built => hf ▸ built_push_after name built room c.seen⟩

variable {kind source name options}

theorem growsTo_of_parse {o : Outcome ParseError Parsed}
    (ho : parse kind source name options files = .ok o) : files.GrowsTo o.files := by
  have room := hasRoom_of_parse kind source name files ho
  obtain ⟨o', f, ho', pushed, same, -⟩ := parse_registers kind source name options room
  obtain rfl := Except.ok.inj (ho.symm.trans ho')
  exact pushed ▸ FileSet.growsTo_push same.2.1

theorem growsTo_of_parseDocument {o : Outcome ParseError Document}
    (ho : Document.parse source name options files = .ok o) : files.GrowsTo o.files := by
  have parsed : parse .document source name options files = .ok (o.map .document) := by
    rw [parse, ho]
    rfl
  exact growsTo_of_parse (o := o.map .document) parsed

theorem growsTo_of_parseSchema {o : Outcome ParseError Schema}
    (ho : Schema.parse source name options files = .ok o) : files.GrowsTo o.files := by
  have parsed : parse .schema source name options files = .ok (o.map .schema) := by
    rw [parse, ho]
    rfl
  exact growsTo_of_parse (o := o.map .schema) parsed

/-- Sources that are parsed one after another make the set grow if each of them does. -/
theorem growsTo_of_parseEach {α : Type}
    {parse : Source → FileSet → Except Violation (Outcome ParseError α)}
    (grows : ∀ x (s : FileSet) o, parse x s = .ok o → s.GrowsTo o.files) {xs : List Source}
    {o : Outcome LoadError (List α)} (ho : SourceSet.parseEach parse xs files = .ok o) :
    files.GrowsTo o.files := by
  induction xs generalizing files o with
  | nil =>
    obtain rfl := Except.ok.inj ho
    exact .refl files
  | cons x xs ih =>
    rw [SourceSet.parseEach] at ho
    obtain ⟨first, hx, ho⟩ := exists_of_bind_eq_ok ho
    have grown := grows x files first hx
    cases hr : first.result with
    | error e =>
      simp only [hr] at ho
      obtain rfl := Except.ok.inj ho
      exact grown
    | ok tree =>
      simp only [hr] at ho
      obtain ⟨others, hxs, ho⟩ := exists_of_bind_eq_ok ho
      obtain rfl := Except.ok.inj ho
      exact grown.trans (ih (o := others) hxs)

end Registration

namespace FileSet

/-- What one call may make of a set: a file is registered, and then told where lines start, or a
text or a set of sources is parsed as documents or schemas. -/
inductive Call : FileSet → FileSet → Prop
  | addFile {s s' : FileSet} {name : String} {size : Nat} {f : File} (starts : List Nat) :
      s.addFile name size = .ok (f, s') →
      Call s (starts.foldl (fun s offset => s.modifyLast (·.addLine offset)) s')
  | document {s : FileSet} {source : String} {name : Option String} {options : ParserOptions}
      {o : Outcome ParseError Document} :
      Document.parse source name options s = .ok o → Call s o.files
  | schema {s : FileSet} {source : String} {name : Option String} {options : ParserOptions}
      {o : Outcome ParseError Schema} :
      Schema.parse source name options s = .ok o → Call s o.files
  | documents {s : FileSet} {sources : SourceSet} {o : Outcome LoadError (List Document)} :
      sources.parseDocuments s = .ok o → Call s o.files
  | schemas {s : FileSet} {sources : SourceSet} {o : Outcome LoadError (List Schema)} :
      sources.parseSchemas s = .ok o → Call s o.files

variable {s s' : FileSet}

/-- Whatever the call is, and whether it succeeds or not, the set grows. -/
theorem Call.growsTo (call : Call s s') : s.GrowsTo s' := by
  cases call with
  | addFile starts added =>
    obtain ⟨rfl, rfl⟩ := addFile_eq_ok added
    rw [foldl_addLine_push]
    exact growsTo_push (sameRange_foldl_addLine _ starts).2.1
  | document ho => exact growsTo_of_parseDocument ho
  | schema ho => exact growsTo_of_parseSchema ho
  | documents ho =>
    obtain ⟨each, hs, rest⟩ := exists_of_bind_eq_ok ho
    obtain rfl := Except.ok.inj rest
    exact growsTo_of_parseEach (o := each) (fun _ _ _ => growsTo_of_parseDocument) hs
  | schemas ho =>
    obtain ⟨each, hs, rest⟩ := exists_of_bind_eq_ok ho
    obtain rfl := Except.ok.inj rest
    exact growsTo_of_parseEach (o := each) (fun _ _ _ => growsTo_of_parseSchema) hs

theorem growsTo_of_calls (calls : Relation.ReflTransGen Call s s') : s.GrowsTo s' := by
  induction calls with
  | refl => exact .refl s
  | tail _ call ih => exact ih.trans call.growsTo

/-- However many calls there have been since, a position resolves to what it resolved to, and every
file still has its number, its name, its positions, its size and its table of lines. And each text
that is parsed adds just one file, whether it is accepted or rejected. -/
theorem positions_stable (built : s.Built) (calls : Relation.ReflTransGen Call s s') :
    (∀ p q, s.position? p = some q → s'.position? p = some q) ∧
    (∀ (i : Nat) f, s.files[i]? = some f → s'.files[i]? = some f) ∧
    ∀ kind source name options, s'.HasRoom source →
      ∃ o f, parse kind source name options s' = .ok o ∧ o.files.files = s'.files.push f ∧
        f.name = name.getD "" ∧ f.base = s'.base ∧ f.size = source.utf8ByteSize := by
  have grown := growsTo_of_calls calls
  refine ⟨fun p q => grown.position? built, fun i f => grown.getElem?,
    fun kind source name options room => ?_⟩
  obtain ⟨o, f, ho, pushed, ⟨name', base, size⟩, -⟩ :=
    parse_registers kind source name options room
  exact ⟨o, f, ho, by rw [pushed]; rfl, name', base, size⟩

/-- A text that is rejected is registered behind a file of three bytes, in which positions resolve
as before. -/
theorem positions_stable_rejected :
    (FileSet.register {} "q.graphql" 3).Built ∧
      ∃ (o : Outcome ParseError Document) (e : ParseError),
        Document.parse "\n\x7b" none ⟨64⟩ (FileSet.register {} "q.graphql" 3) = .ok o ∧
        o.result = .error e ∧
        Relation.ReflTransGen Call (FileSet.register {} "q.graphql" 3) o.files ∧
        o.files.position? ⟨2⟩ = some ⟨"q.graphql", 1, 1, 2⟩ ∧ o.files.HasRoom "\x7b" ∧
        ∃ o' f, parse .schema "\x7b" none ⟨64⟩ o.files = .ok o' ∧
          o'.files.files = o.files.files.push f ∧ f.base = 8 := by
  have built := Built.empty.register "q.graphql" 3
  have failure : Outcome.error?
      (Document.parse "\n\x7b" none ⟨64⟩ (FileSet.register {} "q.graphql" 3)) =
        some (.unexpectedToken ⟨"", 2, 2, 2⟩ "NAME" "EOF") := by
    decide +kernel
  have next : (Document.parse "\n\x7b" none ⟨64⟩ (FileSet.register {} "q.graphql" 3)).toOption.map
      (·.files.base) = some 8 := by
    decide +kernel
  have resolved : (FileSet.register {} "q.graphql" 3).position? ⟨2⟩ =
      some ⟨"q.graphql", 1, 1, 2⟩ := by
    decide +kernel
  obtain ⟨o, ho, he⟩ := Outcome.exists_of_error? failure
  rw [ho] at next
  have base : o.files.base = 8 := Option.some.inj next
  have room : o.files.HasRoom "\x7b" := by
    rw [HasRoom, base]
    decide +kernel
  have calls : Relation.ReflTransGen Call (FileSet.register {} "q.graphql" 3) o.files :=
    .single (.document ho)
  obtain ⟨stable, -, registered⟩ := positions_stable built calls
  obtain ⟨o', f, ho', pushed, -, first, -⟩ := registered .schema "\x7b" none ⟨64⟩ room
  exact ⟨built, o, _, ho, he, calls, stable _ _ resolved, room, o', f, ho', pushed,
    first.trans base⟩

end FileSet

end GraphQL
