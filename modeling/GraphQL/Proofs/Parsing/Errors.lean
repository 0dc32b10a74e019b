import GraphQL.Proofs.Parsing.Outcome
import GraphQL.Proofs.Reading.Completion
import GraphQL.Proofs.Reading.Tidy

/-!
# The place of an error

A text is rejected at the first token that no accepted text could have there. The tokens in front of
it are the beginning of some accepted text, the error is about the token itself, and nothing behind
it plays a part.

Results:
1. `sameStart_iff`: what it means that two texts start with the same tokens.
2. `stops_of_sameStart`: every text that starts with the same tokens is rejected in the same way.
3. `exists_accepted`: the tokens in front of the place of an error can be continued.
4. `error_pinpoints`: all of this together.
-/

namespace GraphQL

/-- The first `n` tokens of the two texts have the same kinds and texts. The end of a text counts as
a token. -/
def SameStart (n : Nat) (source other : String) : Prop :=
  ((sourceTokens other).map (·.token)).take n = ((sourceTokens source).map (·.token)).take n

section Start

variable {source other : String} {n : Nat}

theorem map_token_sourceTokens (base : Nat) :
    (sourceTokens source).map (·.token) =
      (List.range (tokenCount source + 1)).map fun i => (tape source base i).token := by
  rw [sourceTokens_eq_map source ({} : LineLog), List.map_map]
  rfl

theorem sameStart_iff (base base' : Nat) (hn : n ≤ tokenCount source + 1) :
    SameStart n source other ↔ n ≤ tokenCount other + 1 ∧
      ∀ i, i < n → (tape other base' i).token = (tape source base i).token := by
  rw [SameStart, map_token_sourceTokens base', map_token_sourceTokens base, ← List.map_take,
    ← List.map_take, List.take_range, List.take_range, Nat.min_eq_left hn]
  constructor
  · intro h
    have length := congrArg List.length h
    simp only [List.length_map, List.length_range] at length
    have room : n ≤ tokenCount other + 1 := by omega
    rw [Nat.min_eq_left room, List.map_inj_left] at h
    exact ⟨room, fun i hi => h i (List.mem_range.mpr hi)⟩
  · rintro ⟨room, same⟩
    rw [Nat.min_eq_left room]
    exact List.map_congr_left fun i hi => same i (List.mem_range.mp hi)

theorem getElem?_sourceTokens {σ : Type} [LineSink σ] (lines : σ) (hn : n ≤ tokenCount source) :
    (sourceTokens source)[n]? = some ((Lexer.ofSource source lines).nth n) := by
  rw [sourceTokens_eq_map source lines, List.getElem?_map, List.getElem?_range (by omega)]
  rfl

end Start

section Errors

variable {kind : SourceKind} {source : String} {limit : Nat} {base : Nat} {fault : Fault}
  {c : Cursor}

theorem SourceKind.tidies_grammar (kind : SourceKind) : kind.grammar.tidies none = some none := by
  cases kind with
  | document => exact Grammar.tidies_executableDocument
  | schema => exact Grammar.tidies_typeSystemDocument

theorem SourceKind.completable_grammar (kind : SourceKind) : kind.grammar.completable = true := by
  cases kind with
  | document => exact Grammar.completable_executableDocument
  | schema => exact Grammar.completable_typeSystemDocument

theorem SourceKind.productive_grammar (kind : SourceKind) :
    kind.grammar.toEbnf.productive true = true := by
  cases kind <;> rfl

/-- A grammar that stops has looked at the token there and at none behind it. -/
theorem seen_eq_of_stops (h : kind.grammar.Stops (tape source base) limit 0 ⟨0, 0⟩ fault c) :
    c.seen = c.index + 1 :=
  Nat.le_antisymm (h.tidy kind.tidies_grammar (Nat.zero_le _)) h.index_lt_seen

theorem index_le_of_stops (h : kind.grammar.Stops (tape source base) limit 0 ⟨0, 0⟩ fault c) :
    c.index ≤ tokenCount source :=
  h.index_le (kind_tape_tokenCount source base) kind.steady_grammar (Nat.zero_le _)

/-- Every text that starts with the same tokens, up to the one at which the grammar stops, is
rejected in the same way. -/
theorem stops_of_sameStart (h : kind.grammar.Stops (tape source base) limit 0 ⟨0, 0⟩ fault c)
    {other : String} (same : SameStart (c.index + 1) source other) (base' : Nat) :
    kind.grammar.Stops (tape other base') limit 0 ⟨0, 0⟩ fault c := by
  have hi := index_le_of_stops h
  obtain ⟨-, tokens⟩ := (sameStart_iff base base' (Nat.succ_le_succ hi)).mp same
  exact h.transfer tokens (Nat.le_of_eq (seen_eq_of_stops h))

/-- The tokens in front of the one at which the grammar stops are the beginning of a text that it
describes. -/
theorem begins_of_stops (h : kind.grammar.Stops (tape source base) limit 0 ⟨0, 0⟩ fault c) :
    kind.grammar.toEbnf.Begins (slice (tape source base) 0 c.index) := by
  rcases h.completes kind.completable_grammar with none | begins
  · rw [show c.index = 0 from none, slice_self]
    exact Ebnf.begins_of_productive kind.productive_grammar
  · exact begins

theorem map_bare_slice_congr (tape : Nat → PlacedToken) {tape' : Nat → PlacedToken} {i j : Nat}
    (same : ∀ n, i ≤ n → n < j → (tape' n).token = (tape n).token) :
    (slice tape' i j).map PlacedToken.bare = (slice tape i j).map PlacedToken.bare := by
  rw [slice, slice, List.map_map, List.map_map]
  refine List.map_congr_left fun n hn => ?_
  rw [List.mem_range'_1] at hn
  simp only [Function.comp_apply, PlacedToken.bare, same n hn.1 (by omega)]

theorem map_bare_slice_eq_written {tape : Nat → PlacedToken} {i : Nat}
    {ws : List (Token × List Char)}
    (same : ∀ n (h : n < ws.length), (tape (i + n)).token = ws[n].1) :
    (slice tape i (i + ws.length)).map PlacedToken.bare = Ebnf.written ws := by
  refine List.ext_getElem (by simp [Ebnf.written]) fun n h h' => ?_
  have hn : n < ws.length := by simpa [Ebnf.written] using h'
  simp [slice, Ebnf.written, PlacedToken.bare, same n hn]

/-- These tokens can be continued to a text that is accepted if enough levels are allowed. -/
theorem exists_accepted (h : kind.grammar.Stops (tape source base) limit 0 ⟨0, 0⟩ fault c) :
    ∃ new : String, SameStart c.index source new ∧
      ∃ ts, kind.grammar.toEbnf.Derives (textTokens new) ts := by
  obtain ⟨ws, ts, spelled, derives⟩ := begins_of_stops h
  have hi := index_le_of_stops h
  have legal (n : Nat) (hn : n < c.index) : (tape source 0 n).token.kind ≠ .illegal := by
    refine derives.legal kind.legal_grammar (tape source base n) (List.mem_append_left _ ?_)
    exact List.mem_map_of_mem (List.mem_range'_1.mpr ⟨Nat.zero_le n, by omega⟩)
  obtain ⟨new, count, first, second⟩ := exists_continuation source hi legal spelled
  refine ⟨new, (sameStart_iff 0 0 (Nat.le_succ_of_le hi)).mpr ⟨by omega, first⟩,
    Tree.bareOf ts, ?_⟩
  have tokens : textTokens new =
      (slice (tape source base) 0 c.index ++ Ebnf.written ws).map PlacedToken.bare := by
    rw [textTokens_eq_slice new 0, count, List.map_append,
      ← slice_append _ (Nat.zero_le c.index) (Nat.le_add_right _ _), List.map_append,
      map_bare_slice_congr (tape source base) fun n _ hn => first n hn,
      map_bare_slice_eq_written second]
    congr 1
    rw [Ebnf.written, List.map_map]
    rfl
  rw [tokens]
  exact derives.bare

variable (name : Option String) {files : FileSet}

/-- Where the grammar reads the text, the text is accepted. -/
theorem parse_reads (room : files.HasRoom source) {ts : List Tree} {c' : Cursor}
    (h : kind.grammar.Reads (tape source files.base) limit 0 ⟨0, 0⟩ ts c') :
    ∃ o, parse kind source name ⟨limit⟩ files = .ok o ∧ o.result = .ok (kind.ofDefinitions ts) ∧
      o.files =
        files.push ((Lexer.ofSource source (files.nextFile name source)).after c'.seen).lines := by
  obtain ⟨o, ho, hr, hf⟩ := parseDefinitions_of_reads name room h
  refine ⟨o.map fun ts => kind.ofDefinitions ts, by rw [parse_eq_map, ho]; rfl, ?_, hf⟩
  rw [Outcome.result_map, hr]
  rfl

/-- A text whose tokens are derivable is accepted if enough levels are allowed. -/
theorem parse_accepts (room : files.HasRoom source) {ts : List Tree}
    (h : kind.grammar.toEbnf.Derives (textTokens source) ts)
    (deep : levels (textTokens source) ≤ limit) :
    ∃ o, parse kind source name ⟨limit⟩ files = .ok o ∧ o.result.isOk = true := by
  obtain ⟨us, c', reads⟩ := reads_of_derivable files.base h deep
  obtain ⟨o, ho, hr, -⟩ := parse_reads name room reads
  refine ⟨o, ho, ?_⟩
  rw [hr]
  rfl

/-- Where the grammar stops, the text is rejected. -/
theorem parse_stops (room : files.HasRoom source)
    (h : kind.grammar.Stops (tape source files.base) limit 0 ⟨0, 0⟩ fault c) :
    ∃ o e, parse kind source name ⟨limit⟩ files = .ok o ∧ o.result = .error e ∧
      o.files =
        files.push ((Lexer.ofSource source (files.nextFile name source)).after c.seen).lines ∧
      fault.ReportedAt limit (Lexer.ofSource source (files.nextFile name source)) c e ∧
      Parser.run limit source.length kind.grammar (.start source (files.nextFile name source)) =
        .error (.rejected e) (.along (Lexer.ofSource source (files.nextFile name source)) c 0) := by
  obtain ⟨e, o, ho, he, hf, reported, run⟩ := parseDefinitions_of_stops name room h
  refine ⟨o.map fun ts => kind.ofDefinitions ts, e, by rw [parse_eq_map, ho]; rfl, ?_, hf,
    reported, run⟩
  rw [Outcome.result_map, he]
  rfl

/-- The parser has taken the tokens in front of the place where the grammar stops and looked at the
one there, which the error is about. -/
theorem parse_rejects (room : files.HasRoom source)
    (h : kind.grammar.Stops (tape source files.base) limit 0 ⟨0, 0⟩ fault c) :
    ∃ o e t, parse kind source name ⟨limit⟩ files = .ok o ∧ o.result = .error e ∧
      (sourceTokens source)[c.index]? = some t ∧ fault.Reported limit t e ∧
      Parser.run limit source.length kind.grammar (.start source (files.nextFile name source)) =
        .error (.rejected e) (.along (Lexer.ofSource source (files.nextFile name source)) c 0) := by
  obtain ⟨o, e, ho, he, -, reported, run⟩ := parse_stops name room h
  have inside := Nat.le_trans (Lexer.start_le_stop_nth _ c.index)
    (stop_nth_ofSource_le source (files.nextFile name source) c.index)
  exact ⟨o, e, _, ho, he, getElem?_sourceTokens (files.nextFile name source) (index_le_of_stops h),
    reported.reported inside, run⟩

/-- A text that is rejected is one at which the grammar stops. -/
theorem stops_of_error (room : files.HasRoom source) {o : Outcome ParseError Parsed}
    (ho : parse kind source name ⟨limit⟩ files = .ok o) {e : ParseError}
    (he : o.result = .error e) :
    ∃ fault c, kind.grammar.Stops (tape source files.base) limit 0 ⟨0, 0⟩ fault c := by
  refine (reads_or_stops kind source limit files.base).resolve_left fun ⟨ts, c', reads⟩ => ?_
  obtain ⟨o', ho', hr, -⟩ := parse_reads name room reads
  obtain rfl : o = o' := Except.ok.inj (ho.symm.trans ho')
  rw [hr] at he
  cases he

end Errors

/-- The state of a parser that has taken the first `i` tokens of a text and holds back the next one,
behind which it has not looked. -/
def ParserState.HasTaken (source : String) (file : File) (i : Nat) (s : ParserState) : Prop :=
  s.stream =
    { lexer := (Lexer.ofSource source file).after (i + 1)
      buffer := [(Lexer.ofSource source file).nth i] }

theorem ParserState.hasTaken_along (source : String) (file : File) {c : Cursor} (d : Nat)
    (seen : c.seen = c.index + 1) :
    HasTaken source file c.index (.along (Lexer.ofSource source file) c d) := by
  simp [HasTaken, along, TokenStream.along, seen]

/-- An error about an unexpected token names the first token at which the text deviates from every
accepted text: its place and its text are those of the token, and the parser has taken just the
tokens in front of it; a text that starts with the same tokens, this one included, is rejected for
the same reason; and the tokens in front of it can be continued to a text that is accepted. -/
theorem error_pinpoints (kind : SourceKind) (source : String) (name : Option String) (limit : Nat)
    (files : FileSet) {o : Outcome ParseError Parsed}
    (ho : parse kind source name ⟨limit⟩ files = .ok o) {position : Position}
    {expected found : String} (he : o.result = .error (.unexpectedToken position expected found)) :
    ∃ i t, (sourceTokens source)[i]? = some t ∧
      (position.offset = t.start ∧ found = t.token.describe ∧
        ∃ s : ParserState, s.HasTaken source (files.nextFile name source) i ∧
          Parser.run limit source.length kind.grammar
              (.start source (files.nextFile name source)) =
            .error (.rejected (.unexpectedToken position expected found)) s) ∧
      (∀ (other : String) (name' : Option String) (files' : FileSet), files'.HasRoom other →
        SameStart (i + 1) source other →
        ∃ o' position' t', parse kind other name' ⟨limit⟩ files' = .ok o' ∧
          o'.result = .error (.unexpectedToken position' expected found) ∧
          (sourceTokens other)[i]? = some t' ∧ position'.offset = t'.start) ∧
      ∃ (new : String) (least : Nat), SameStart i source new ∧
        ∀ (limit' : Nat) (name' : Option String) (files' : FileSet), least ≤ limit' →
          files'.HasRoom new →
          ∃ o', parse kind new name' ⟨limit'⟩ files' = .ok o' ∧ o'.result.isOk = true := by
  have room := hasRoom_of_parse kind source name files ho
  obtain ⟨fault, c, stops⟩ := stops_of_error name room ho he
  obtain ⟨o₁, e, t, ho₁, he₁, ht, reported, run⟩ := parse_rejects name room stops
  obtain rfl : o₁ = o := Except.ok.inj (ho₁.symm.trans ho)
  obtain rfl : e = .unexpectedToken position expected found := Except.error.inj (he₁.symm.trans he)
  -- only a fault of this kind is reported by such an error
  obtain ⟨rfl, offset, describes⟩ : fault = .unexpected expected ∧ position.offset = t.start ∧
      found = t.token.describe := by
    cases fault with
    | unexpected s =>
      obtain ⟨p, offset, same⟩ := reported
      obtain ⟨rfl, rfl, rfl⟩ := ParseError.unexpectedToken.inj same
      exact ⟨rfl, offset, rfl⟩
    | tooDeep =>
      obtain ⟨p, -, same⟩ := reported
      cases same
  have taken := ParserState.hasTaken_along source (files.nextFile name source) 0
    (seen_eq_of_stops stops)
  have others : ∀ (other : String) (name' : Option String) (files' : FileSet),
      files'.HasRoom other → SameStart (c.index + 1) source other →
      ∃ o' position' t', parse kind other name' ⟨limit⟩ files' = .ok o' ∧
        o'.result = .error (.unexpectedToken position' expected found) ∧
        (sourceTokens other)[c.index]? = some t' ∧ position'.offset = t'.start := by
    intro other name' files' room' same
    obtain ⟨o', e', t', ho', he', ht', reported', -⟩ :=
      parse_rejects name' room' (stops_of_sameStart stops same files'.base)
    obtain ⟨position', offset', rfl⟩ := reported'
    have token : t'.token = t.token := by
      have first := congrArg (·[c.index]?) same
      simpa [List.getElem?_take, ht, ht'] using first
    exact ⟨o', position', t', ho', by rw [he', token, describes], ht', offset'⟩
  have continued : ∃ (new : String) (least : Nat), SameStart c.index source new ∧
      ∀ (limit' : Nat) (name' : Option String) (files' : FileSet), least ≤ limit' →
        files'.HasRoom new →
        ∃ o', parse kind new name' ⟨limit'⟩ files' = .ok o' ∧ o'.result.isOk = true := by
    obtain ⟨new, start, ts, derives⟩ := exists_accepted stops
    refine ⟨new, levels (textTokens new), start, ?_⟩
    intro limit' name' files' enough room'
    exact parse_accepts name' room' derives enough
  exact ⟨c.index, t, ht, ⟨offset, describes, _, taken, run⟩, others, continued⟩

/-- Empty parentheses are an error at the closing one, and what stands in front of it is the
beginning of a document. -/
theorem error_pinpoints_parenthesis :
    ∃ i t, (sourceTokens "\x7b a ( )")[i]? = some t ∧ t.start = 6 ∧ t.token.describe = ")" ∧
      ∃ new, SameStart i "\x7b a ( )" new := by
  have failure : Outcome.error? (parse .document "\x7b a ( )" none ⟨1⟩ {}) =
      some (.unexpectedToken { offset := 6, line := 1, column := 7 } "NAME" ")") := by
    decide +kernel
  obtain ⟨o, ho, he⟩ := Outcome.exists_of_error? failure
  obtain ⟨i, t, ht, ⟨offset, found, -⟩, -, new, -, start, -⟩ :=
    error_pinpoints .document "\x7b a ( )" none 1 {} ho he
  exact ⟨i, t, ht, offset.symm, found.symm, new, start⟩

end GraphQL
