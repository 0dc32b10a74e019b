import GraphQL.Proofs.Parsing.Errors
import GraphQL.Proofs.Reading.Descent
import GraphQL.Proofs.Reading.Safety

/-!
# Every parse comes to an end

A parse takes the tokens of its text one after another and never the end of it. Each round of a
repetition takes a token unless it is the last thing that the parser does, and a construct that
stands inside itself has a token in front. So there is no text on which the parser goes on for ever,
and the lexer is not asked for more than the end of the text once.

Results:
1. `Replays.index_le`: no more tokens are taken than the text has.
2. `run_ends`: a parse has a result, and at most one token has been looked at in vain.
3. `at_of_reached`: every point that the parser comes to is a place along the text.
4. `parse_terminates`: what happens on the way to the end of a parse.
-/

namespace GraphQL

open GraphQL.Parser

/-- Where a fault is, there is one error that reports it. -/
theorem Fault.ReportedAt.unique {limit : Nat} {l : Lexer File} {c : Cursor} {fault : Fault}
    {e e' : ParseError} (h : fault.ReportedAt limit l c e) (h' : fault.ReportedAt limit l c e') :
    e = e' := by
  obtain ⟨p, resolved, rfl⟩ := h
  obtain ⟨p', resolved', rfl⟩ := h'
  obtain rfl : p = p' := Except.ok.inj (resolved.symm.trans resolved')
  rfl

namespace Parser.Recorded

/-- Where the end of the text is not taken, no more tokens are taken than come before it. -/
theorem Replays.index_le {l : Lexer File} {last : Nat} (heof : (l.nth last).token.kind = .eof)
    {s s' : ParserState} {xs : List Step} (h : Replays s xs s')
    (proper : ∀ x ∈ xs, x.request = .token .consume →
      x.state.stream.consume.1.token.kind ≠ .eof)
    {c : Cursor} (place : s.stream = .along l c) (ordered : c.Ordered) (hc : c.index ≤ last) :
    c.index + (calls xs).count .consume ≤ last := by
  induction xs generalizing s c with
  | nil => exact hc
  | cons x xs ih =>
    obtain ⟨state, request⟩ := x
    obtain ⟨rfl, rest⟩ := h
    have others := fun x hx => proper x (List.mem_cons_of_mem _ hx)
    cases request with
    | token q =>
      have stream : (Request.after state (.token q)).stream = .along l (q.move c) := by
        rw [Request.after, place, TokenStream.call_along l ordered]
      have inside : (q.move c).index ≤ last := by
        cases q with
        | consume =>
          refine Nat.lt_of_le_of_ne hc fun e => ?_
          have taken := proper _ List.mem_cons_self rfl
          rw [place, TokenStream.consume_along l ordered, e] at taken
          exact taken heof
        | peek n => rwa [TokenStream.Call.index_move]
      have count : (calls (⟨state, .token q⟩ :: xs)).count .consume =
          [q].count .consume + (calls xs).count .consume := TokenStream.count_consume_cons q _
      have step := ih rest others stream (TokenStream.Call.ordered_move ordered q) inside
      rw [TokenStream.Call.index_move, Nat.add_assoc] at step
      rwa [count]
    | _ => exact ih rest others place ordered hc

end Parser.Recorded

section Termination

variable (kind : SourceKind) (source : String) (name : Option String) (limit : Nat)
  (files : FileSet)

/-- The parser accepts the text or rejects it, and looks at one token at most that it does not
take. -/
theorem run_ends :
    let r :=
      Parser.run limit source.length kind.grammar (.start source (files.nextFile name source))
    ((∃ ts s, r = .ok ts s) ∨ ∃ e s, r = .error (.rejected e) s) ∧
      (endState r).stream.buffered ≤ 1 := by
  intro r
  have held (c : Cursor) (tidy : c.seen ≤ c.index + 1) :
      (ParserState.along (Lexer.ofSource source (files.nextFile name source)) c 0).stream.buffered
        ≤ 1 := by
    rw [ParserState.along, TokenStream.buffered_along]
    omega
  rcases reads_or_stops kind source limit files.base with ⟨ts, c, reads⟩ | ⟨fault, c, stops⟩
  · have run : r = _ := run_of_reads name reads
    rw [run]
    exact ⟨.inl ⟨_, _, rfl⟩, held c (reads.tidy kind.tidies_grammar (Nat.zero_le _))⟩
  · obtain ⟨e, -, run⟩ := run_of_stops name stops
    have run : r = _ := run
    rw [run]
    exact ⟨.inr ⟨_, _, rfl⟩, held c (Nat.le_of_eq (seen_eq_of_stops stops))⟩

/-- The point at which a parse begins. -/
def Parser.Point.root (kind : SourceKind) (source : String) (file : File) : Point :=
  ⟨source.length + 1, kind.grammar, .start source file⟩

/-- A point that the parser comes to is a place along the text, and where reading stops there, the
parse ends. -/
theorem at_of_reached {p : Point}
    (reached : p = .root kind source (files.nextFile name source) ∨
      Within limit (source.length + 1) (.root kind source (files.nextFile name source)) p) :
    ∃ c d, p.At (tokenCount source) (Lexer.ofSource source (files.nextFile name source)) c d ∧
      ∀ fault c', p.grammar.Stops (tape source files.base) limit d c fault c' →
        kind.grammar.Stops (tape source files.base) limit 0 ⟨0, 0⟩ fault c' := by
  have short := tokenCount_le_length source
  have start : (Point.root kind source (files.nextFile name source)).At (tokenCount source)
      (Lexer.ofSource source (files.nextFile name source)) ⟨0, 0⟩ 0 :=
    { state := rfl
      ordered := Nat.le_refl 0
      inside := Nat.zero_le _
      steady := kind.steady_grammar
      room := .inl (show tokenCount source < 0 + (source.length + 1) by omega) }
  rcases reached with rfl | below
  · exact ⟨_, _, start, fun _ _ => id⟩
  · obtain ⟨c, d, hp, down⟩ := below.descends (tape_eq_placed source files.base _)
      (stop_nth_ofSource_le source _) (kind_tape_tokenCount source files.base)
      (Nat.lt_succ_of_le short) start
    exact ⟨c, d, hp, down.stops⟩

/-- The parser comes to an end on every text. Each round of a repetition takes a token, or it ends
with an error that the whole parse ends with; and where a construct is inside one like it, a token
has been taken in between. No token that is taken is the end of the text, and the lexer is asked for
one token at most beyond those that come before the end. -/
theorem parse_terminates :
    let start := ParserState.start source (files.nextFile name source)
    let root := Point.root kind source (files.nextFile name source)
    let bound := source.length + 1
    let steps := (Recorded.run limit source.length kind.grammar).steps start
    let r := Parser.run limit source.length kind.grammar start
    ((∃ ts s, r = .ok ts s) ∨ ∃ e s, r = .error (.rejected e) s) ∧
    (∀ p, p = root ∨ Within limit bound root p →
      (∀ test item s, p.grammar = .many test item → ahead test p.state = .ok true s →
        (∃ ts s', Point.result limit bound ⟨p.levels, item, s⟩ = .ok ts s' ∧
          s.stream.Takes s'.stream) ∨
        ∃ e s' s'', Point.result limit bound ⟨p.levels, item, s⟩ = .error (.rejected e) s' ∧
          r = .error (.rejected e) s'') ∧
      ∀ q, Within limit bound p q → q.grammar.Alike p.grammar →
        p.state.stream.Takes q.state.stream) ∧
    (Recorded.run limit source.length kind.grammar).Records
      (Parser.run limit source.length kind.grammar) ∧
    (∀ x ∈ steps, x.request = .token .consume →
      x.state.stream.consume.1.token.kind ≠ .eof) ∧
    start.stream.asked (Recorded.calls steps) ≤ tokenCount source + 1 := by
  intro start root bound steps r
  let l := Lexer.ofSource source (files.nextFile name source)
  have same : ∀ n, tape source files.base n = (l.nth n).placed l.lines.base :=
    tape_eq_placed source files.base _
  have fits : ∀ n, (l.nth n).stop ≤ l.lines.size := stop_nth_ofSource_le source _
  have heof := kind_tape_tokenCount source files.base
  have enough : tokenCount source < bound := Nat.lt_succ_of_le (tokenCount_le_length source)
  have before : ∀ i, i < tokenCount source → (l.nth i).token.kind ≠ .eof :=
    fun i => kind_nth_ne_eof source _
  have ends := run_ends kind source name limit files
  have records := Recorded.records_run limit source.length kind.grammar
  have replays : Recorded.Replays start steps (endState r) := records.2 start
  have proper : ∀ x ∈ steps, x.request = .token .consume →
      x.state.stream.consume.1.token.kind ≠ .eof := by
    rintro ⟨s, -⟩ hx rfl
    obtain ⟨c, d, rfl, ordered, taken⟩ :=
      (Recorded.safe_run fits kind.steady_grammar source.length).1 _ hx
    have next : (ParserState.along l c d).stream.consume.1 = l.nth c.index :=
      congrArg Prod.fst (TokenStream.consume_along l ordered)
    rwa [next]
  refine ⟨ends.1, fun p reached => ?_, records, proper, ?_⟩
  · obtain ⟨c, d, hp, stops⟩ := at_of_reached kind source name limit files reached
    refine ⟨fun test item s loop tested => ?_, fun q below alike => ?_⟩
    · rcases hp.round same fits heof enough before loop tested with
        round | ⟨fault, c', e, s', round, reported, stopped⟩
      · exact .inl round
      · obtain ⟨e', reported', run⟩ := run_of_stops name (stops fault c' stopped)
        obtain rfl := reported.unique reported'
        exact .inr ⟨e, s', _, round, run⟩
    · exact hp.takes_of_within same fits heof enough before below alike
  · -- the tokens asked for have been taken, but for the one that is held back at the end
    have taken := replays.index_le (kind_nth_tokenCount source _) proper (c := ⟨0, 0⟩) rfl
      (Nat.le_refl 0) (Nat.zero_le _)
    have account := start.stream.asked_add_buffered (Recorded.calls steps)
    rw [← replays.stream_eq] at account
    have held : (endState r).stream.buffered ≤ 1 := ends.2
    have fresh : start.stream.buffered = 0 := rfl
    rw [fresh] at account
    omega

end Termination

end GraphQL
