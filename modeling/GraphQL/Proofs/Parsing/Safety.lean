import GraphQL.Proofs.Parsing.Positions
import GraphQL.Proofs.Parsing.Termination

/-!
# No parse breaks a promise

Files, token streams and the count of levels are made for certain arguments only. A parse of a text
for which there is room keeps to them: it has an outcome, and each request on the way is one that
may be made. The lexer stops between characters only, and no position that a construct reckons from
its tokens lies beyond the text.

Results:
1. `isValid_foldl_step`: the lexer stops between two characters of the text.
2. `kept_of_inOrder`: a request that is in order breaks no promise.
3. `ending_le_of_result`: a token of a tree ends inside the text.
4. `parse_safe`: parsing a text for which there is room.
-/

namespace GraphQL

open GraphQL.Parser

/-- The file can resolve the position: it owns it, and knows where its line starts, which is not
behind it. -/
def File.Resolvable (f : File) (p : Pos) : Prop :=
  f.contains p = true ∧ ∃ start,
    f.lineStart? (f.lineOf (p.raw - f.base)) = some start ∧ start ≤ p.raw - f.base

theorem File.resolvable_base_add {f : File} {offset : Nat} (inside : offset ≤ f.size)
    (line : ∃ start, f.lineStart? (f.lineOf offset) = some start ∧ start ≤ offset) :
    f.Resolvable ⟨f.base + offset⟩ := by
  refine ⟨contains_base_add inside, ?_⟩
  rw [Nat.add_sub_cancel_left]
  exact line

/-- The request breaks no promise: the stream looks at one of two tokens ahead, the offset lies in
the file, the position can be resolved, and a level is left that has been entered, of which there
are no more than allowed. -/
def Parser.Step.Kept (limit : Nat) (x : Step) : Prop :=
  match x.request with
  | .token .consume => True
  | .token (.peek n) => n < 2
  | .place offset => offset ≤ x.state.stream.lexer.lines.size
  | .resolve p => x.state.stream.lexer.lines.Resolvable p
  | .enter => x.state.depth < limit
  | .leave => 0 < x.state.depth

section Lexing

variable {σ : Type} [LineSink σ] (source : String) (lines : σ)

/-- Wherever the lexer stops, also within a token, it is between two characters of the text. -/
theorem isValid_foldl_step (n : Nat) {cs rest : List Char}
    (h : ((Lexer.ofSource source lines).after n).rest = cs ++ rest) :
    String.Pos.Raw.IsValid source
      ⟨(cs.foldl Lexer.step ((Lexer.ofSource source lines).after n)).offset⟩ := by
  obtain ⟨taken, whole, offset⟩ := Lexer.exists_taken_after (Lexer.ofSource source lines) n
  have text : source.toList = (taken ++ cs) ++ rest := by
    rw [List.append_assoc, ← h]
    exact whole
  have start : (Lexer.ofSource source lines).offset = 0 := rfl
  rw [Lexer.offset_foldl_step, offset, start, Nat.zero_add, ← byteLength_append]
  exact isValid_byteLength text

end Lexing

section Legal

theorem Ebnf.legal_or (e f : Ebnf) : (e.or f).legal = (e.legal && f.legal) := by
  cases f with
  | never => exact (Bool.and_true e.legal).symm
  | _ => rfl

variable {limit bound : Nat} {p q : Point}

/-- The parts of what is built from well-formed tokens are built from such tokens. -/
theorem Parser.Enters.legal (h : Enters limit bound p q) (hp : p.grammar.toEbnf.legal = true) :
    q.grammar.toEbnf.legal = true := by
  cases h with
  | first => exact (Bool.and_eq_true_iff.mp hp).1
  | second _ => exact (Bool.and_eq_true_iff.mp hp).2
  | @yes _ _ g h _ _ _ =>
    rw [Grammar.toEbnf, Ebnf.legal_or, Bool.and_eq_true] at hp
    exact hp.1
  | no _ =>
    rw [Grammar.toEbnf, Ebnf.legal_or, Bool.and_eq_true] at hp
    exact hp.2
  | item _ => exact hp
  | again _ _ => exact hp
  | node => exact hp
  | nested _ => exact hp
  | @call _ r _ =>
    rw [Grammar.toEbnf_ofRule]
    exact Ebnf.legal_ofRule r

theorem Parser.Within.legal (h : Within limit bound p q) (hp : p.grammar.toEbnf.legal = true) :
    q.grammar.toEbnf.legal = true := by
  induction h with
  | single step => exact step.legal hp
  | tail _ step ih => exact step.legal ih

end Legal

section Safety

variable {kind : SourceKind} {source : String} (name : Option String) {limit : Nat}
  {files : FileSet}

variable (files) in
/-- A request that is in order breaks no promise, and it goes to the file of the text. -/
theorem kept_of_inOrder {x : Step}
    (h : x.InOrder (Lexer.ofSource source (files.nextFile name source)) limit) :
    (files.nextFile name source).SameRange x.state.stream.lexer.lines ∧ x.Kept limit := by
  obtain ⟨s, r⟩ := x
  obtain ⟨c, d, rfl, ordered, proper⟩ := h
  have range := Lexer.sameRange_after (Lexer.ofSource source (files.nextFile name source)) c.seen
  have ⟨_, base, size⟩ := range
  refine ⟨range, ?_⟩
  cases r with
  | token q =>
    cases q with
    | consume => trivial
    | peek n => exact proper
  | place offset => exact Nat.le_trans proper (Nat.le_of_eq size.symm)
  | resolve p =>
    obtain ⟨offset, inside, rfl⟩ := proper
    have line := Lexer.exists_lineStart_after source
      (rfl : (files.nextFile name source).lines = #[0]) c.seen offset
    have kept := File.resolvable_base_add (Nat.le_trans inside (Nat.le_of_eq size.symm)) line
    rwa [base] at kept
  | enter => exact proper
  | leave => exact proper

/-- Every token of a tree that the parser makes on its way ends inside the text, also where that is
reckoned from its length. -/
theorem ending_le_of_result {p : Point}
    (reached : p = .root kind source (files.nextFile name source) ∨
      Within limit (source.length + 1) (.root kind source (files.nextFile name source)) p)
    {ts : List Tree} {s : ParserState}
    (ok : p.result limit (source.length + 1) = .ok ts s) {x : PlacedToken}
    (hx : x ∈ Tree.tokensOf ts) : x.ending.raw ≤ files.base + source.utf8ByteSize := by
  have legal : p.grammar.toEbnf.legal = true := by
    rcases reached with rfl | below
    · exact kind.legal_grammar
    · exact below.legal kind.legal_grammar
  obtain ⟨c, d, hp, -⟩ := at_of_reached kind source name limit files reached
  have heof := kind_tape_tokenCount source files.base
  obtain ⟨c', reads, -⟩ := hp.reads_of_result (tape_eq_placed source files.base _)
    (stop_nth_ofSource_le source _) heof (Nat.lt_succ_of_le (tokenCount_le_length source)) ok
  have member := reads.derives.tokensOf_sublist.subset hx
  have proper := reads.derives.legal legal x member
  obtain ⟨n, -, hn, rfl⟩ := mem_slice.mp member
  have inside := reads.index_le heof hp.steady hp.inside
  have ending : (tape source files.base n).ending = (tape source files.base n).stop :=
    Lexer.ending_placed _ files.base
      (kind_nth_ne_eof source ({} : LineLog) (Nat.lt_of_lt_of_le hn inside)) proper
  rw [ending]
  exact Nat.add_le_add_left (stop_nth_ofSource_le source ({} : LineLog) n) files.base

/-- No position that a tree mentions lies behind the end of the text. -/
theorem raw_le_of_mentions {ts : List Tree} {c' : Cursor}
    (reads : kind.grammar.Reads (tape source files.base) limit 0 ⟨0, 0⟩ ts c') {p : Pos}
    (h : (kind.ofDefinitions ts).Mentions p) : p.raw ≤ files.base + source.utf8ByteSize := by
  have member := mentions_tree_of_reads reads h
  cases ts with
  | nil =>
    obtain rfl := Tree.eq_none_of_mentions member
    exact Nat.zero_le _
  | cons t ts =>
    obtain ⟨offset, reached, rfl⟩ :=
      exists_offset_of_mentions (files.nextFile none source) reads (List.cons_ne_nil t ts) member
    obtain ⟨-, inside, -⟩ := locate_lines_after source none files reached
    obtain ⟨-, -, size⟩ :=
      Lexer.sameRange_after (Lexer.ofSource source (files.nextFile none source)) c'.seen
    exact Nat.add_le_add_left (Nat.le_trans inside (Nat.le_of_eq size)) files.base

/-- Parsing a text for which a set of files has room gives an outcome, whatever the text and however
many levels are allowed. On the way the lexer stops between characters only, every request goes to
the file of the text and breaks no promise, and where a construct reckons its end from a token, that
is no position behind the text. The same holds of all positions of the tree that comes out. -/
theorem parse_safe (kind : SourceKind) (source : String) (name : Option String) (limit : Nat)
    {files : FileSet} (room : files.HasRoom source) :
    let file := files.nextFile name source
    let l := Lexer.ofSource source file
    let start := ParserState.start source file
    let root := Point.root kind source file
    let bound := source.length + 1
    let steps := (Recorded.run limit source.length kind.grammar).steps start
    let last := files.base + source.utf8ByteSize
    (∃ o, parse kind source name ⟨limit⟩ files = .ok o ∧ ∀ parsed, o.result = .ok parsed →
      (∀ x ∈ parsed.tree.tokens, x.ending.raw ≤ last) ∧ ∀ p, parsed.Mentions p → p.raw ≤ last) ∧
    (∀ n cs rest, (l.after n).rest = cs ++ rest →
      String.Pos.Raw.IsValid source ⟨(cs.foldl Lexer.step (l.after n)).offset⟩) ∧
    (Recorded.run limit source.length kind.grammar).Records
      (Parser.run limit source.length kind.grammar) ∧
    (∀ x ∈ steps, file.SameRange x.state.stream.lexer.lines ∧ x.Kept limit) ∧
    ∀ p, (p = root ∨ Within limit bound root p) → ∀ ts s, p.result limit bound = .ok ts s →
      ∀ x ∈ Tree.tokensOf ts, x.ending.raw ≤ last := by
  intro file l start root bound steps last
  refine ⟨?_, fun n _ _ => isValid_foldl_step source file n,
    Recorded.records_run limit source.length kind.grammar, fun x hx => ?_,
    fun p reached ts s ok x => ending_le_of_result name reached ok⟩
  · rcases reads_or_stops kind source limit files.base with ⟨ts, c, reads⟩ | ⟨fault, c, stops⟩
    · obtain ⟨o, ho, hr, -⟩ := parse_reads name room reads
      refine ⟨o, ho, fun parsed hp => ?_⟩
      obtain rfl := Except.ok.inj (hr.symm.trans hp)
      refine ⟨fun x hx => ?_, fun p => raw_le_of_mentions reads⟩
      rw [tree_ofDefinitions_of_reads reads, Tree.tokens_node] at hx
      have whole : root.result limit bound = .ok ts _ := run_of_reads name reads
      exact ending_le_of_result name (.inl rfl) whole hx
    · obtain ⟨o, e, ho, he, -⟩ := parse_stops name room stops
      refine ⟨o, ho, fun parsed hp => ?_⟩
      rw [he] at hp
      cases hp
  · have fits := stop_nth_ofSource_le source file
    exact kept_of_inOrder name files
      ((Recorded.safe_run fits kind.steady_grammar source.length).1 x hx)

/-- No level is allowed here, and the text just fits into what is left of the positions. -/
theorem parse_safe_brace :
    FileSet.HasRoom { base := FileSet.maxPos - 2 } "\x7b" ∧
      ∃ o, parse .document "\x7b" none ⟨0⟩ { base := FileSet.maxPos - 2 } = .ok o ∧
        o.result = .error (.nestingTooDeep { offset := 0, line := 1, column := 1 } 0) ∧
        ∀ x ∈ (Recorded.run 0 1 SourceKind.document.grammar).steps
          (.start "\x7b" (FileSet.nextFile { base := FileSet.maxPos - 2 } none "\x7b")),
          x.Kept 0 := by
  have room : FileSet.HasRoom { base := FileSet.maxPos - 2 } "\x7b" := by decide +kernel
  have failure :
      Outcome.error? (parse .document "\x7b" none ⟨0⟩ { base := FileSet.maxPos - 2 }) =
        some (.nestingTooDeep { offset := 0, line := 1, column := 1 } 0) := by decide +kernel
  obtain ⟨o', ho', he⟩ := Outcome.exists_of_error? failure
  obtain ⟨⟨o, ho, -⟩, -, -, kept, -⟩ := parse_safe .document "\x7b" none 0 room
  obtain rfl := Except.ok.inj (ho'.symm.trans ho)
  exact ⟨room, o', ho, he, fun x hx => (kept x hx).2⟩

end Safety

end GraphQL
