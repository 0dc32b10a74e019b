import GraphQL.Proofs.Lexing.Lines
import GraphQL.Proofs.Parsing.Errors
import GraphQL.Proofs.Parsing.Spans

/-!
# True positions

The set of files says where in which text a position is. For the positions that a parse gives out
this is the true place, although the table of lines that it is looked up in is only filled as far as
the lexer has gone: whatever the parser gives a position to has been read, and lines that start
further behind do not matter.

Results:
1. `position?_after`: an offset that has been read resolves to its place in the text.
2. `exists_offset_of_mentions`: every position in the tree of a text has been read.
3. `positions_true`: positions in trees and in errors resolve to the true places.
-/

namespace GraphQL

/-- The position is that of a token in the tree, or one where a construct in it starts or ends. -/
inductive Tree.Mentions (t : Tree) : Pos → Prop
  | tokenPos {x : PlacedToken} : x ∈ t.tokens → Mentions t x.pos
  | tokenStop {x : PlacedToken} : x ∈ t.tokens → Mentions t x.stop
  | pos {u : Tree} : u.Inside t → Mentions t u.pos
  | stop {u : Tree} : u.Inside t → Mentions t u.stop

/-- The position is one that the tree of the text mentions, or one that its schema stores. -/
inductive Parsed.Mentions : Parsed → Pos → Prop
  | tree {parsed : Parsed} {p : Pos} : parsed.tree.Mentions p → Mentions parsed p
  | schemaPos (s : Schema) : Mentions (.schema s) s.pos
  | schemaStop (s : Schema) : Mentions (.schema s) s.stop

namespace Tree

theorem mem_tokens_of_inside {x : PlacedToken} {t : Tree} (h : Inside (.token x) t) :
    x ∈ t.tokens := by
  induction h with
  | here => simp
  | part hu _ ih =>
    obtain ⟨before, after, rfl⟩ := List.append_of_mem hu
    rw [tokens_node, tokensOf_append, tokensOf]
    exact List.mem_append_right _ (List.mem_append_left _ ih)

/-- A construct without parts mentions no position. -/
theorem eq_none_of_mentions {k : NodeKind} {p : Pos} (h : Mentions (.node k []) p) : p = .none := by
  have whole {u : Tree} (inside : Inside u (.node k [])) : u = .node k [] := by
    cases inside with
    | here => rfl
    | part hu _ => cases hu
  have nothing (ls : List Landmark) : Landmark.pick ls [] = .none := by
    induction ls with
    | nil => rfl
    | cons l ls ih => exact ih
  cases h with
  | tokenPos hx => cases hx
  | tokenStop hx => cases hx
  | pos inside =>
    rw [whole inside, Tree.pos]
    exact nothing k.opening
  | stop inside =>
    rw [whole inside, Tree.stop]
    exact nothing k.closing

end Tree

namespace Lexer

variable {σ : Type} [LineSink σ]

theorem offset_after_mono (l : Lexer σ) {n m : Nat} (h : n ≤ m) :
    (l.after n).offset ≤ (l.after m).offset := by
  induction h with
  | refl => exact Nat.le_refl _
  | @step m _ ih =>
    calc (l.after n).offset ≤ (l.after m).offset := ih
      _ ≤ (l.nth m).start := offset_le_start_read (l.after m)
      _ ≤ (l.nth m).stop := l.start_le_stop_nth m
      _ = (l.after (m + 1)).offset := stop_read (l.after m)

/-- A token that has been read is in front of the lexer. -/
theorem stop_nth_le_offset_after (l : Lexer σ) {n m : Nat} (h : n < m) :
    (l.nth n).stop ≤ (l.after m).offset :=
  Nat.le_trans (Nat.le_of_eq (stop_read (l.after n))) (offset_after_mono l h)

end Lexer

section Positions

variable {kind : SourceKind} {source : String} (name : Option String) {limit : Nat}
  {files : FileSet}

variable (source) (files) in
/-- The file of the text after `n` tokens knows the place of every offset that has been read. -/
theorem locate_lines_after {n offset : Nat}
    (reached : offset ≤ ((Lexer.ofSource source (files.nextFile name source)).after n).offset) :
    let file := ((Lexer.ofSource source (files.nextFile name source)).after n).lines
    file.base = files.base ∧ offset ≤ file.size ∧
      file.locate offset = textPlace source (name.getD "") offset := by
  obtain ⟨-, base, size⟩ :=
    Lexer.sameRange_after (Lexer.ofSource source (files.nextFile name source)) n
  have whole :=
    Lexer.offset_add_bytes_after (Lexer.ofSource source (files.nextFile name source)) n
  have length : byteLength (Lexer.ofSource source (files.nextFile name source)).rest =
      source.utf8ByteSize := byteLength_toList source
  rw [length] at whole
  have fresh : (files.nextFile name source).lines = #[0] := rfl
  refine ⟨base, ?_, Lexer.locate_after source fresh rfl reached⟩
  calc offset ≤ _ := reached
    _ ≤ 0 + source.utf8ByteSize := whole ▸ Nat.le_add_right _ _
    _ = source.utf8ByteSize := Nat.zero_add _
    _ = _ := size.symm

/-- An offset that has been read resolves to its place in the text. -/
theorem position?_after (ordered : files.Ordered) {n offset : Nat}
    (reached : offset ≤ ((Lexer.ofSource source (files.nextFile name source)).after n).offset) :
    (files.push ((Lexer.ofSource source (files.nextFile name source)).after n).lines).position?
        ⟨files.base + offset⟩ =
      some (textPlace source (name.getD "") offset) := by
  obtain ⟨base, inside, place⟩ := locate_lines_after source name files reached
  rw [FileSet.position?_push ordered base inside, place]

/-- While the parser runs, the file of the text resolves what has been read in the same way. -/
theorem eq_textPlace_of_resolves (positive : 0 < files.base) {n offset : Nat}
    (reached : offset ≤ ((Lexer.ofSource source (files.nextFile name source)).after n).offset)
    {p : Position}
    (h : (Lexer.ofSource source (files.nextFile name source)).Resolves n offset p) :
    p = textPlace source (name.getD "") offset := by
  obtain ⟨base, inside, place⟩ := locate_lines_after source name files reached
  have resolved := File.position_base_add inside (by omega)
  rw [base, place] at resolved
  exact Except.ok.inj (h.symm.trans resolved)

/-- What the parser leaves behind is a set of files that can be made. -/
theorem built_push_after (built : files.Built) (room : files.HasRoom source) (n : Nat) :
    (files.push ((Lexer.ofSource source (files.nextFile name source)).after n).lines).Built := by
  have fits : files.base + source.utf8ByteSize + 1 ≤ FileSet.maxPos := room
  have registered : files.addFile (name.getD "") source.utf8ByteSize =
      .ok (files.nextFile name source, files.push (files.nextFile name source)) := by
    rw [FileSet.addFile, if_pos fits]
    rfl
  obtain ⟨taken, -, advanced⟩ :=
    Lexer.exists_advance_after (Lexer.ofSource source (files.nextFile name source)) n
  rw [advanced, Lexer.lines_advance]
  exact (built.addFile registered).addLines _

/-- A schema stores no other positions than those in its tree. -/
theorem mentions_tree_of_reads {base : Nat} {ts : List Tree} {c' : Cursor}
    (reads : kind.grammar.Reads (tape source base) limit 0 ⟨0, 0⟩ ts c') {p : Pos}
    (h : (kind.ofDefinitions ts).Mentions p) : (Tree.node kind.root ts).Mentions p := by
  generalize hp : kind.ofDefinitions ts = parsed at h
  cases h with
  | tree h => rwa [← hp, tree_ofDefinitions_of_reads reads] at h
  | schemaPos s =>
    cases kind with
    | document => cases hp
    | schema =>
      obtain rfl := Parsed.schema.inj hp
      rw [(Schema.edges_ofDefinitions (fun s => (SourceKind.schema.keeps_grammar s).2)
        reads.derives).1]
      exact .pos .here
  | schemaStop s =>
    cases kind with
    | document => cases hp
    | schema =>
      obtain rfl := Parsed.schema.inj hp
      rw [(Schema.edges_ofDefinitions (fun s => (SourceKind.schema.keeps_grammar s).2)
        reads.derives).2]
      exact .stop .here

/-- Every position in the tree of a text has been read, unless the text has no tokens. -/
theorem exists_offset_of_mentions {σ : Type} [LineSink σ] (lines : σ) {base : Nat}
    {ts : List Tree} {c' : Cursor}
    (reads : kind.grammar.Reads (tape source base) limit 0 ⟨0, 0⟩ ts c') (nonempty : ts ≠ [])
    {p : Pos} (h : (Tree.node kind.root ts).Mentions p) :
    ∃ offset, offset ≤ ((Lexer.ofSource source lines).after c'.seen).offset ∧
      p = ⟨base + offset⟩ := by
  have derives := reads.derives
  rw [reads_ends kind reads] at derives
  have sized := ending_eq_stop kind derives
  have placed := tape_eq_placed source base lines
  -- the parser has taken all tokens, so the lexer is behind each of them
  have reached {n : Nat} (hn : n < tokenCount source) :
      ((Lexer.ofSource source lines).nth n).stop ≤
        ((Lexer.ofSource source lines).after c'.seen).offset :=
    Lexer.stop_nth_le_offset_after _ <|
      Nat.lt_of_lt_of_le (reads_ends kind reads ▸ hn) (reads.upto.ordered (Nat.le_refl 0))
  have starts {n : Nat} (hn : n < tokenCount source) :
      ∃ offset, offset ≤ ((Lexer.ofSource source lines).after c'.seen).offset ∧
        (tape source base n).pos = ⟨base + offset⟩ :=
    ⟨_, Nat.le_trans (Lexer.start_le_stop_nth _ n) (reached hn), by rw [placed]; rfl⟩
  have ends {n : Nat} (hn : n < tokenCount source) :
      ∃ offset, offset ≤ ((Lexer.ofSource source lines).after c'.seen).offset ∧
        (tape source base n).stop = ⟨base + offset⟩ :=
    ⟨_, reached hn, by rw [placed]; rfl⟩
  have leaf {x : PlacedToken} (hx : x ∈ (Tree.node kind.root ts).tokens) :
      ∃ n, n < tokenCount source ∧ tape source base n = x ∧ x.ending = x.stop := by
    rw [Tree.tokens_node] at hx
    have member := derives.tokensOf_sublist.subset hx
    obtain ⟨n, -, hn, same⟩ := mem_slice.mp member
    exact ⟨n, hn, same, sized x member⟩
  have spans {k : NodeKind} {ps : List Tree}
      (inside : Tree.Inside (.node k ps) (.node kind.root ts)) :=
    exists_spans_of_ne_nil derives kind.keeps_grammar kind.edged_grammar sized inside nonempty
  cases h with
  | tokenPos hx =>
    obtain ⟨n, hn, rfl, -⟩ := leaf hx
    exact starts hn
  | tokenStop hx =>
    obtain ⟨n, hn, rfl, -⟩ := leaf hx
    exact ends hn
  | @pos u inside =>
    cases u with
    | token x =>
      obtain ⟨n, hn, rfl, -⟩ := leaf (Tree.mem_tokens_of_inside inside)
      rw [Tree.pos]
      exact starts hn
    | node k ps =>
      obtain ⟨i, j, h⟩ := spans inside
      rw [h.pos]
      exact starts (Nat.lt_of_lt_of_le h.range.1 h.range.2)
  | @stop u inside =>
    cases u with
    | token x =>
      obtain ⟨n, hn, rfl, ending⟩ := leaf (Tree.mem_tokens_of_inside inside)
      rw [Tree.stop, ending]
      exact ends hn
    | node k ps =>
      obtain ⟨i, j, h⟩ := spans inside
      rw [h.stop]
      exact ends (n := j - 1) (by have := h.range; omega)

/-- What is reported at a token that has been looked at is reported at its place in the text. -/
theorem position_of_reportedAt (positive : 0 < files.base) {fault : Fault} {c : Cursor}
    {e : ParseError} (looked : c.index < c.seen)
    (h : fault.ReportedAt limit (Lexer.ofSource source (files.nextFile name source)) c e) :
    e.position = textPlace source (name.getD "")
      ((Lexer.ofSource source (files.nextFile name source)).nth c.index).start := by
  obtain ⟨p, resolved, rfl⟩ := h
  have reached := Nat.le_trans (Lexer.start_le_stop_nth _ c.index)
    (Lexer.stop_nth_le_offset_after (Lexer.ofSource source (files.nextFile name source)) looked)
  obtain rfl := eq_textPlace_of_resolves name positive reached resolved
  cases fault <;> rfl

/-- For every text that a set of files has room for, parsing has an outcome and leaves a set of
files by which every position that the tree or the schema mentions resolves to the true place: the
name of the file, the offset, and the line and column that the newlines of the text give it. The one
exception is an empty document or schema, which has no place. If the text is rejected, the place in
the error is the true place of the token that the parser has come to, behind which it has not
looked. -/
theorem positions_true (kind : SourceKind) (source : String) (name : Option String) (limit : Nat)
    {files : FileSet} (built : files.Built) (room : files.HasRoom source) :
    ∃ o, parse kind source name ⟨limit⟩ files = .ok o ∧ o.files.Built ∧
      (∀ parsed, o.result = .ok parsed → ∀ p, parsed.Mentions p →
        if parsed.tree = .node kind.root [] then p = .none ∧ o.files.position? p = none
        else files.base ≤ p.raw ∧ o.files.position? p =
          some (textPlace source (name.getD "") (p.raw - files.base))) ∧
      ∀ e, o.result = .error e →
        ∃ i t s, (sourceTokens source)[i]? = some t ∧
          ParserState.HasTaken source (files.nextFile name source) i s ∧
          Parser.run limit source.length kind.grammar
              (.start source (files.nextFile name source)) = .error (.rejected e) s ∧
          e.position = textPlace source (name.getD "") t.start := by
  have ordered := built.ordered
  rcases reads_or_stops kind source limit files.base with ⟨ts, c, reads⟩ | ⟨fault, c, stops⟩
  · obtain ⟨o, ho, hr, hf⟩ := parse_reads name room reads
    refine ⟨o, ho, hf ▸ built_push_after name built room c.seen, fun parsed hp p mentioned => ?_,
      fun e he => ?_⟩
    · obtain rfl := Except.ok.inj (hr.symm.trans hp)
      have member := mentions_tree_of_reads reads mentioned
      rw [tree_ofDefinitions_of_reads reads]
      split
      · next empty =>
        obtain rfl := Tree.eq_none_of_mentions (empty ▸ member)
        exact ⟨rfl, rfl⟩
      · next filled =>
        have nonempty : ts ≠ [] := fun none => filled (none ▸ rfl)
        obtain ⟨offset, reached, rfl⟩ :=
          exists_offset_of_mentions (files.nextFile name source) reads nonempty member
        refine ⟨Nat.le_add_right _ _, ?_⟩
        rw [hf, position?_after name ordered reached]
        exact congrArg (fun n => some (textPlace source (name.getD "") n))
          (Nat.add_sub_cancel_left files.base offset).symm
    · rw [hr] at he
      cases he
  · obtain ⟨o, e, ho, he, hf, reported, run⟩ := parse_stops name room stops
    refine ⟨o, ho, hf ▸ built_push_after name built room c.seen, fun parsed hp => ?_,
      fun e' he' => ?_⟩
    · rw [he] at hp
      cases hp
    · obtain rfl := Except.error.inj (he.symm.trans he')
      exact ⟨c.index, _, _, getElem?_sourceTokens (files.nextFile name source)
        (index_le_of_stops stops),
        ParserState.hasTaken_along source _ 0 (seen_eq_of_stops stops), run,
        position_of_reportedAt name ordered.positive stops.index_lt_seen reported⟩

/-- The end of the text is an error here. It is in the second line, since no line starts behind the
newline that ends the text, and its column counts bytes. -/
theorem positions_true_end :
    FileSet.Built {} ∧ FileSet.HasRoom {} "# é\nscalar\n" ∧
      ∃ o e t, parse .schema "# é\nscalar\n" (some "s.graphql") ⟨0⟩ {} = .ok o ∧
        o.result = .error e ∧ t ∈ sourceTokens "# é\nscalar\n" ∧ t.start = 12 ∧
        e.position = { fileName := "s.graphql", offset := 12, line := 2, column := 8 } ∧
        e.position = textPlace "# é\nscalar\n" "s.graphql" t.start := by
  have room : FileSet.HasRoom {} "# é\nscalar\n" := by decide +kernel
  have failure :
      Outcome.error? (parse .schema "# é\nscalar\n" (some "s.graphql") ⟨0⟩ {}) =
        some (.unexpectedToken
          { fileName := "s.graphql", offset := 12, line := 2, column := 8 } "NAME" "EOF") := by
    decide +kernel
  obtain ⟨o', ho', he⟩ := Outcome.exists_of_error? failure
  obtain ⟨o, ho, -, -, rejected⟩ :=
    positions_true .schema "# é\nscalar\n" (some "s.graphql") 0 .empty room
  obtain rfl := Except.ok.inj (ho'.symm.trans ho)
  obtain ⟨i, t, s, ht, -, -, place⟩ := rejected _ he
  have offset : 12 = t.start := congrArg Position.offset place
  exact ⟨.empty, room, o', _, t, ho, he, List.mem_of_getElem? ht, offset.symm, rfl, place⟩

/-- An empty document has a start and an end that are no places in its file. -/
theorem empty_document_nowhere :
    ∃ o parsed, parse .document "" (some "q.graphql") ⟨64⟩ {} = .ok o ∧ o.result = .ok parsed ∧
      parsed.Mentions parsed.tree.pos ∧ parsed.Mentions parsed.tree.stop ∧
      ∀ offset, o.files.position? parsed.tree.pos ≠ some (textPlace "" "q.graphql" offset) ∧
        o.files.position? parsed.tree.stop ≠ some (textPlace "" "q.graphql" offset) := by
  obtain ⟨o, ho, hr⟩ := Outcome.exists_of_meaning? (a := .document ⟨[]⟩)
    (r := parse .document "" (some "q.graphql") ⟨64⟩ {}) (by decide +kernel)
  exact ⟨o, _, ho, hr, .tree (.pos .here), .tree (.stop .here), fun _ => ⟨nofun, nofun⟩⟩

end Positions

end GraphQL
