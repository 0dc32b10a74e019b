import GraphQL.Proofs.Lexing.Reporting
import GraphQL.Proofs.Parsing.Formatting
import GraphQL.Proofs.Parsing.Rows

/-!
# How far a parse reads

In some places the parser looks at the second token ahead before it decides what to read. Wherever
it stops with an error, this token has become the next one: the lexer has read the token that the
error is about and none behind it. So the file that stays registered knows of the newlines up to the
end of this token, those inside it included, and of no others. A text that is accepted has been
read to its end.

Results:
1. `seen_eq_of_reads`, `seen_eq_of_stops`: the last token that the parser looks at.
2. `parse_reads_up_to`: where the lexer stands when a parse ends, and what the file of the text is
   then.
-/

namespace GraphQL

section Extent

variable {kind : SourceKind} {source : String} {limit : Nat}

/-- A repetition that has ended has looked at the token behind it. -/
theorem Grammar.Reads.many_looks {tape : Nat → PlacedToken} {d : Nat} {test : Lookahead}
    {g : Grammar} {c c' : Cursor} {ts : List Tree}
    (h : Reads tape limit d (.many test g) c ts c') : c'.index < c'.seen := by
  generalize hm : Grammar.many test g = m at h
  induction h with
  | ends failed =>
    rw [Lookahead.index_glance]
    exact Lookahead.index_lt_seen_glance _ _ _
  | again _ _ _ _ ih => exact ih hm
  | _ => cases hm

/-- A grammar that is read has been read to the end of the text and no further. -/
theorem seen_eq_of_reads {base : Nat} {ts : List Tree} {c' : Cursor}
    (h : kind.grammar.Reads (tape source base) limit 0 ⟨0, 0⟩ ts c') :
    c'.seen = tokenCount source + 1 := by
  have last := reads_ends kind h
  have looked : c'.index < c'.seen := by
    rw [kind.grammar_eq_many] at h
    exact h.many_looks
  have tidy : c'.seen ≤ c'.index + 1 := h.tidy kind.tidies_grammar (Nat.zero_le _)
  omega

theorem ParserState.lexer_along (l : Lexer File) (c : Cursor) (d : Nat) :
    (ParserState.along l c d).stream.lexer = l.after c.seen := rfl

/-- No two tokens start at the same offset. -/
theorem eq_of_start_eq {t t' : SpannedToken} (ht : t ∈ sourceTokens source)
    (ht' : t' ∈ sourceTokens source) (same : t'.start = t.start) : t' = t := by
  obtain ⟨i, hi, rfl⟩ := exists_nth_of_mem source ({} : LineLog) ht
  obtain ⟨j, hj, rfl⟩ := exists_nth_of_mem source ({} : LineLog) ht'
  obtain rfl : j = i := by
    refine eq_of_pos_tape_eq source 0 hj hi ?_
    simp [tape, SpannedToken.placed, same]
  rfl

end Extent

/-- How far a parse reads its text. If the text is rejected, the lexer has read the one token that
starts where the error is and no further, and the file of the text holds the starts of the lines up
to the end of this token that lie inside the text. If it is accepted, the lexer has come to the end
of the text, and the file is the one that all the tokens of the text, read one after the other,
make of it. -/
theorem parse_reads_up_to (kind : SourceKind) (source : String) (name : Option String)
    (limit : Nat) (files : FileSet) (room : files.HasRoom source) :
    let file := files.nextFile name source
    let run := Parser.run limit source.length kind.grammar (.start source file)
    ∃ o, parse kind source name ⟨limit⟩ files = .ok o ∧
      (∀ e, o.result = .error e →
        ∃ i t s, (sourceTokens source)[i]? = some t ∧
          (∀ t' ∈ sourceTokens source, t'.start = e.position.offset ↔ t' = t) ∧
          run = .error (.rejected e) s ∧
          s.stream.lexer = (Lexer.ofSource source file).after (i + 1) ∧
          s.stream.lexer.offset = t.stop ∧
          o.files = files.push
            { file with
              lines := (0 :: (newlineEnds source).filter fun n =>
                n ≤ t.stop ∧ n < source.utf8ByteSize).toArray }) ∧
      ∀ parsed, o.result = .ok parsed →
        ∃ ts s, run = .ok ts s ∧
          s.stream.lexer.rest = [] ∧ s.stream.lexer.offset = source.utf8ByteSize ∧
          o.files = files.push (Lexer.ofSource source file).drain.2.lines := by
  intro file run
  rcases reads_or_stops kind source limit files.base with ⟨ts, c, reads⟩ | ⟨fault, c, stops⟩
  · obtain ⟨o, ho, hr, hf⟩ := parse_reads name room reads
    obtain ⟨rest, offset⟩ := after_of_tokenCount_lt source file (Nat.lt_succ_self _)
    refine ⟨o, ho, fun e he => ?_, fun parsed _ => ⟨ts, _, run_of_reads name reads, ?_⟩⟩
    · rw [hr] at he
      cases he
    · rw [seen_eq_of_reads reads] at hf
      rw [ParserState.lexer_along, seen_eq_of_reads reads, Lexer.drain_ofSource,
        Lexer.lines_setFinished]
      exact ⟨rest, offset, hf⟩
  · obtain ⟨o, e, ho, he, hf, reported, stopped⟩ := parse_stops name room stops
    refine ⟨o, ho, fun e' he' => ?_, fun parsed hr => ?_⟩
    · obtain rfl : e = e' := Except.error.inj (he.symm.trans he')
      have ht := getElem?_sourceTokens file (index_le_of_stops stops)
      have inside := Nat.le_trans (Lexer.start_le_stop_nth _ c.index)
        (stop_nth_ofSource_le source file c.index)
      have start : e.position.offset = ((Lexer.ofSource source file).nth c.index).start :=
        (reported.reported inside).offset
      -- a lexer has read up to the end of the token that it has read last
      have reached : ((Lexer.ofSource source file).after (c.index + 1)).offset =
          ((Lexer.ofSource source file).nth c.index).stop := (Lexer.stop_read _).symm
      rw [seen_eq_of_stops stops, Lexer.file_after source rfl, reached] at hf
      refine ⟨c.index, _, _, ht, fun t' ht' => ⟨fun same => ?_, ?_⟩, stopped, ?_, ?_, hf⟩
      · exact eq_of_start_eq (List.mem_of_getElem? ht) ht' (same.trans start)
      · rintro rfl
        exact start.symm
      · rw [ParserState.lexer_along, seen_eq_of_stops stops]
      · rw [ParserState.lexer_along, seen_eq_of_stops stops, reached]
    · rw [he] at hr
      cases hr

/-- A string that is broken by a newline is an error at which the newline has been read. The one
behind it has not. -/
theorem parse_reads_up_to_string :
    ∃ o t, parse .document "\x7b a \"b\n c\n \x7d" none ⟨1⟩ {} = .ok o ∧
      t ∈ sourceTokens "\x7b a \"b\n c\n \x7d" ∧ t.token.text = "\"b\n" ∧ t.stop = 7 ∧
      o.files =
        { base := 14, files := #[{ name := "", base := 1, size := 12, lines := #[0, 7] }] } := by
  have failure : Outcome.error? (parse .document "\x7b a \"b\n c\n \x7d" none ⟨1⟩ {}) =
      some (.unexpectedToken { offset := 4, line := 1, column := 5 } "NAME" "\"b\n") := by
    decide +kernel
  obtain ⟨o, ho, he⟩ := Outcome.exists_of_error? failure
  obtain ⟨o', ho', rejected, -⟩ := parse_reads_up_to .document "\x7b a \"b\n c\n \x7d" none 1 {}
    (by decide +kernel)
  obtain rfl : o' = o := Except.ok.inj (ho'.symm.trans ho)
  obtain ⟨i, t, s, ht, only, -, -, -, files⟩ := rejected _ he
  have found : t = ⟨⟨.illegal, "\"b\n"⟩, 4, 7⟩ := by
    refine ((only _ ?_).mp rfl).symm
    decide +kernel
  subst found
  refine ⟨o', _, ho, List.mem_of_getElem? ht, rfl, rfl, files.trans ?_⟩
  decide +kernel

end GraphQL
