import GraphQL.Proofs.Parsing.Errors
import GraphQL.Proofs.Parsing.Spans
import GraphQL.Proofs.Reading.Depth
import GraphQL.Proofs.Reading.Nesting

/-!
# The limit on nesting is exact

A parse under a limit is compared with one whose limit is greater than the number of tokens, which
no text reaches. If the text keeps to the limit both parses are the same, whatever they come to. If
it does not, the parse under the limit ends at the first construct that is nested too deeply.

Results:
1. `exists_unexpected_of_stops`: a limit greater than the number of tokens is never the reason.
2. `parse_within`, `parse_exceeds`: what the limit does to a text that is accepted without it.
3. `parse_limited`: what it does to a text that is rejected without it.
4. `nesting_limit_exact`: both of these, and the count of open levels at all times.
-/

namespace GraphQL

/-- What is unexpected is reported in the same way under every limit. -/
theorem Fault.ReportedAt.unexpected_unique {limit most : Nat} {l : Lexer File} {c : Cursor}
    {expected : String} {e e' : ParseError}
    (h : (Fault.unexpected expected).ReportedAt limit l c e)
    (h' : (Fault.unexpected expected).ReportedAt most l c e') : e = e' := by
  obtain ⟨p, resolved, rfl⟩ := h
  obtain ⟨p', resolved', rfl⟩ := h'
  obtain rfl : p = p' := Except.ok.inj (resolved.symm.trans resolved')
  rfl

section Nesting

variable {kind : SourceKind} {source : String} {limit most base : Nat} {ts : List Tree}
  {c : Cursor} {fault : Fault}

theorem SourceKind.levelled_grammar (kind : SourceKind) : kind.grammar.levelled false = true := by
  cases kind with
  | document => exact Grammar.levelled_executableDocument
  | schema => exact Grammar.levelled_typeSystemDocument

/-- A limit that is greater than the number of tokens is never the reason to stop. -/
theorem exists_unexpected_of_stops (enough : tokenCount source < limit)
    (h : kind.grammar.Stops (tape source base) limit 0 ⟨0, 0⟩ fault c) :
    ∃ expected, fault = .unexpected expected := by
  cases fault with
  | unexpected expected => exact ⟨expected, rfl⟩
  | tooDeep =>
    have reached := h.le_of_tooDeep rfl kind.bracketed_grammar (Nat.zero_le _)
    have inside := index_le_of_stops h
    omega

variable (kind) in
/-- A whole text is nested as deeply as its definitions are. -/
theorem nesting_root (ts : List Tree) :
    (Tree.node kind.root ts).nesting = Tree.nestingOf ts := by
  cases kind <;> simp [SourceKind.root, Tree.nesting, NodeKind.isLevel]

variable (kind) in
theorem levelNodes_root (above : Nat) (ts : List Tree) :
    (Tree.node kind.root ts).levelNodes above = Tree.levelNodesOf above ts := by
  cases kind <;> simp [SourceKind.root, Tree.levelNodes, NodeKind.isLevel]

variable (name : Option String) {files : FileSet}

/-- What is read in the same way under two limits comes to the same. -/
theorem parse_eq_of_reads
    (h : kind.grammar.Reads (tape source files.base) limit 0 ⟨0, 0⟩ ts c)
    (h' : kind.grammar.Reads (tape source files.base) most 0 ⟨0, 0⟩ ts c) :
    parse kind source name ⟨most⟩ files = parse kind source name ⟨limit⟩ files :=
  parse_eq_of_run name ((run_of_reads name h').trans (run_of_reads name h).symm)

/-- What stops at the same unexpected token under two limits comes to the same. -/
theorem parse_eq_of_stops {expected : String}
    (h : kind.grammar.Stops (tape source files.base) limit 0 ⟨0, 0⟩ (.unexpected expected) c)
    (h' : kind.grammar.Stops (tape source files.base) most 0 ⟨0, 0⟩ (.unexpected expected) c) :
    parse kind source name ⟨most⟩ files = parse kind source name ⟨limit⟩ files := by
  obtain ⟨e, reported, run⟩ := run_of_stops name h
  obtain ⟨e', reported', run'⟩ := run_of_stops name h'
  obtain rfl := reported.unexpected_unique reported'
  exact parse_eq_of_run name (run'.trans run.symm)

/-- The limit is reported at the token that the grammar stops at because of it. -/
theorem parse_tooDeep (room : files.HasRoom source)
    (h : kind.grammar.Stops (tape source files.base) limit 0 ⟨0, 0⟩ .tooDeep c) :
    ∃ o place t, parse kind source name ⟨limit⟩ files = .ok o ∧
      o.result = .error (.nestingTooDeep place limit) ∧
      (sourceTokens source)[c.index]? = some t ∧ place.offset = t.start ∧
      tape source files.base c.index = t.placed files.base := by
  obtain ⟨o, e, t, ho, he, ht, ⟨place, offset, rfl⟩, -⟩ := parse_rejects name room h
  have nth := ht.symm.trans (getElem?_sourceTokens ({} : LineLog) (index_le_of_stops h))
  exact ⟨o, place, t, ho, he, ht, offset, by rw [Option.some.inj nth, tape]⟩

/-- A limit does nothing to a text that is nested no deeper. -/
theorem parse_within
    (h : kind.grammar.Reads (tape source files.base) limit 0 ⟨0, 0⟩ ts c)
    (shallow : Tree.nestingOf ts ≤ most) :
    parse kind source name ⟨most⟩ files = parse kind source name ⟨limit⟩ files := by
  have room : 0 + Tree.nestingOf ts ≤ most := by rwa [Nat.zero_add]
  exact parse_eq_of_reads name h (h.within kind.levelled_grammar rfl room)

/-- A text that is nested deeper is rejected at the token that opens the first construct with as
many levels around it as are allowed. -/
theorem parse_exceeds (room : files.HasRoom source)
    (h : kind.grammar.Reads (tape source files.base) limit 0 ⟨0, 0⟩ ts c)
    (deep : most < Tree.nestingOf ts) :
    ∃ (o : Outcome ParseError Parsed) (place : Position) (u : Tree) (i : Nat) (t : SpannedToken),
      parse kind source name ⟨most⟩ files = .ok o ∧
      o.result = .error (.nestingTooDeep place most) ∧
      (Tree.levelNodesOf 0 ts).find? (·.1 = most) = some (most, u) ∧
      (sourceTokens source)[i]? = some t ∧ place.offset = t.start ∧
      t.token.opensLevel = true ∧ u.tokens.head? = some (t.placed files.base) := by
  have beyond : most < 0 + Tree.nestingOf ts := by rwa [Nat.zero_add]
  obtain ⟨c', stops, -, ⟨u, found, head⟩, opens⟩ := h.exceeds kind.levelled_grammar
    kind.bracketed_grammar rfl (Nat.zero_le most) beyond
  obtain ⟨o, place, t, ho, he, ht, offset, placed⟩ := parse_tooDeep name room stops
  rw [placed] at head opens
  exact ⟨o, place, u, c'.index, t, ho, he, found, ht, offset, opens, head⟩

/-- A text that is rejected for an unexpected token is rejected in the same way under a limit, or
for the limit no later. -/
theorem parse_limited (room : files.HasRoom source) {expected : String}
    (h : kind.grammar.Stops (tape source files.base) limit 0 ⟨0, 0⟩ (.unexpected expected) c) :
    parse kind source name ⟨most⟩ files = parse kind source name ⟨limit⟩ files ∨
      ∃ o place i t, parse kind source name ⟨most⟩ files = .ok o ∧
        o.result = .error (.nestingTooDeep place most) ∧ i ≤ c.index ∧
        (sourceTokens source)[i]? = some t ∧ place.offset = t.start := by
  rcases h.limited kind.levelled_grammar kind.bracketed_grammar rfl (Nat.zero_le most) nofun with
    stops | ⟨c', stops, le⟩
  · exact .inl (parse_eq_of_stops name h stops)
  · obtain ⟨o, place, t, ho, he, ht, offset, -⟩ := parse_tooDeep name room stops
    exact .inr ⟨o, place, c'.index, t, ho, he, le, ht, offset⟩

end Nesting

/-- The limit on nesting is exact, and does nothing else. Compared with a parse under a limit that
is greater than the number of tokens: a text that is accepted there and nested no deeper than
`limit` comes to just the same; one that is nested deeper is rejected at the token that opens the
first construct, in source order, with `limit` levels around it; and a text that is rejected there
is rejected for an unexpected token, and under `limit` in just the same way or for the limit at a
token no further on. In every state that a parse goes through no more levels are open than allowed,
and whatever a part of the parser comes to, it leaves as many open as it has found. -/
theorem nesting_limit_exact (kind : SourceKind) (source : String) (name : Option String)
    (limit unlimited : Nat) {files : FileSet} (room : files.HasRoom source)
    (enough : tokenCount source < unlimited) :
    (∃ o o', parse kind source name ⟨unlimited⟩ files = .ok o ∧
      parse kind source name ⟨limit⟩ files = .ok o' ∧
      (∀ parsed, o.result = .ok parsed →
        (parsed.tree.nesting ≤ limit → o' = o) ∧
        (limit < parsed.tree.nesting → ∃ (place : Position) (u : Tree) (i : Nat) (t : SpannedToken),
          o'.result = .error (.nestingTooDeep place limit) ∧
          (parsed.tree.levelNodes 0).find? (·.1 = limit) = some (limit, u) ∧
          (sourceTokens source)[i]? = some t ∧ place.offset = t.start ∧
          t.token.opensLevel = true ∧ u.tokens.head? = some (t.placed files.base))) ∧
      ∀ e, o.result = .error e → ∃ (position : Position) (expected found : String) (j : Nat)
          (t : SpannedToken), e = .unexpectedToken position expected found ∧
        (sourceTokens source)[j]? = some t ∧ position.offset = t.start ∧
        (o' = o ∨ ∃ (place : Position) (i : Nat) (t' : SpannedToken),
          o'.result = .error (.nestingTooDeep place limit) ∧ i ≤ j ∧
          (sourceTokens source)[i]? = some t' ∧ place.offset = t'.start)) ∧
    (∀ most s, Parser.Visits most (source.length + 1) (source.length + 1) kind.grammar
      (.start source (files.nextFile name source)) s → s.depth ≤ most) ∧
    ∀ most bound levels g,
      Parser.KeepsDepth (Parser.ofGrammar most bound (Parser.ofRule most bound levels) g) := by
  refine ⟨?_, fun most s visits => visits.depth_le (Nat.zero_le most),
    fun most bound levels g => Parser.keepsDepth_ofGrammar (Parser.keepsDepth_ofRule levels) g⟩
  rcases reads_or_stops kind source unlimited files.base with ⟨ts, c, reads⟩ | ⟨fault, c, stops⟩
  · obtain ⟨o, ho, hr, -⟩ := parse_reads name room reads
    have tree := tree_ofDefinitions_of_reads reads
    have accepted : ∀ e, o.result ≠ .error e := by simp [hr]
    rcases Nat.lt_or_ge limit (Tree.nestingOf ts) with deep | shallow
    · obtain ⟨o', place, u, i, t, ho', he, first⟩ := parse_exceeds name room reads deep
      refine ⟨o, o', ho, ho', fun parsed hp => ?_, fun e he => absurd he (accepted e)⟩
      obtain rfl := Except.ok.inj (hr.symm.trans hp)
      rw [tree, nesting_root, levelNodes_root]
      exact ⟨fun shallow => absurd deep (Nat.not_lt_of_le shallow),
        fun _ => ⟨place, u, i, t, he, first⟩⟩
    · have same := (parse_within name reads shallow).trans ho
      refine ⟨o, o, ho, same, fun parsed hp => ?_, fun e he => absurd he (accepted e)⟩
      obtain rfl := Except.ok.inj (hr.symm.trans hp)
      rw [tree, nesting_root]
      exact ⟨fun _ => rfl, fun deep => absurd deep (Nat.not_lt_of_le shallow)⟩
  · obtain ⟨expected, rfl⟩ := exists_unexpected_of_stops enough stops
    obtain ⟨o, e, t, ho, he, ht, ⟨position, offset, rfl⟩, -⟩ := parse_rejects name room stops
    have rejected : ∀ parsed, o.result ≠ .ok parsed := by simp [he]
    rcases parse_limited name room stops with same | ⟨o', place, i, t', ho', he', first⟩
    · refine ⟨o, o, ho, same.trans ho, fun parsed hp => absurd hp (rejected parsed), ?_⟩
      intro e' he'
      obtain rfl := Except.error.inj (he.symm.trans he')
      exact ⟨position, expected, _, c.index, t, rfl, ht, offset, .inl rfl⟩
    · refine ⟨o, o', ho, ho', fun parsed hp => absurd hp (rejected parsed), ?_⟩
      intro e' he''
      obtain rfl := Except.error.inj (he.symm.trans he'')
      exact ⟨position, expected, _, c.index, t, rfl, ht, offset, .inr ⟨place, i, t', he', first⟩⟩

/-- The inner one of two selection sets is the first with one level around it. -/
theorem nesting_limit_exact_inner :
    FileSet.HasRoom {} "\x7b a \x7b b \x7d \x7d" ∧ tokenCount "\x7b a \x7b b \x7d \x7d" < 7 ∧
      ∃ (o : Outcome ParseError Parsed) (u : Tree) (t : SpannedToken),
        parse .document "\x7b a \x7b b \x7d \x7d" none ⟨1⟩ {} = .ok o ∧
        o.result = .error (.nestingTooDeep ⟨"", 4, 1, 5⟩ 1) ∧
        t ∈ sourceTokens "\x7b a \x7b b \x7d \x7d" ∧ t.start = 4 ∧
        u.tokens.head? = some (t.placed 1) := by
  have room : FileSet.HasRoom {} "\x7b a \x7b b \x7d \x7d" := by decide +kernel
  have enough : tokenCount "\x7b a \x7b b \x7d \x7d" < 7 := by decide +kernel
  have deep : (Outcome.meaning? (parse .document "\x7b a \x7b b \x7d \x7d" none ⟨7⟩ {})).map
      (·.tree.nesting) = some 2 := by
    decide +kernel
  have failure : Outcome.error? (parse .document "\x7b a \x7b b \x7d \x7d" none ⟨1⟩ {}) =
      some (.nestingTooDeep ⟨"", 4, 1, 5⟩ 1) := by
    decide +kernel
  obtain ⟨parsed, meaning, two⟩ := Option.map_eq_some_iff.mp deep
  obtain ⟨o₁, ho₁, hr⟩ := Outcome.exists_of_meaning? meaning
  obtain ⟨o₂, ho₂, he⟩ := Outcome.exists_of_error? failure
  obtain ⟨⟨o, o', ho, ho', accepted, -⟩, -⟩ :=
    nesting_limit_exact .document "\x7b a \x7b b \x7d \x7d" none 1 7 room enough
  obtain rfl := Except.ok.inj (ho₁.symm.trans ho)
  obtain rfl := Except.ok.inj (ho₂.symm.trans ho')
  obtain ⟨place, u, i, t, refused, -, ht, offset, -, head⟩ :=
    (accepted parsed hr).2 (by rw [two]; decide)
  obtain ⟨rfl, -⟩ := ParseError.nestingTooDeep.inj (Except.error.inj (refused.symm.trans he))
  exact ⟨room, enough, o₂, u, t, ho₂, he, List.mem_of_getElem? ht, offset.symm, head⟩

end GraphQL
