import GraphQL.Parse
import GraphQL.Proofs.Files.Ownership
import GraphQL.Proofs.Lexing.Slices
import GraphQL.Proofs.Reading.Completeness

/-!
# The outcome of a parse

A parse registers its text as a file and then reads the tokens of the text by a grammar. Every text
for which the set of files has room has an outcome: the trees that the grammar gives when it is read
up to the end of the text, or an error for the token at which that stops.

Results:
1. `reads_or_stops`: one of the two happens.
2. `parseDefinitions_of_reads`, `parseDefinitions_of_stops`: what the outcome is then.
3. `reads_ends`: what is read is the whole text.
4. `derives_unique`: a text has at most one derivation.
5. `definitions_iff`: a text is accepted if and only if it is derivable, and its derivation is the
   one found.
-/

namespace GraphQL

/-- The set of files has positions left for the text. -/
def FileSet.HasRoom (files : FileSet) (source : String) : Prop :=
  files.base + source.utf8ByteSize + 1 ≤ FileSet.maxPos

instance (files : FileSet) (source : String) : Decidable (files.HasRoom source) :=
  inferInstanceAs (Decidable (_ ≤ _))

/-- The tokens of a text without their places, and without the end of the text. -/
def textTokens (source : String) : List PlacedToken :=
  (sourceTokens source).dropLast.map fun t => ⟨t.token, .none, .none⟩

/-- The text as a new file of the set. -/
def FileSet.nextFile (files : FileSet) (name : Option String) (source : String) : File :=
  { name := name.getD "", base := files.base, size := source.utf8ByteSize }

/-- The parser before its first step. -/
def ParserState.start (source : String) (file : File) : ParserState :=
  .along (Lexer.ofSource source file) ⟨0, 0⟩ 0

theorem isOk_map {ε α β : Type} (f : α → β) (r : Except ε α) : (r.map f).isOk = r.isOk := by
  cases r <;> rfl

theorem exists_of_map_eq_ok {ε α β : Type} {f : α → β} {r : Except ε α} {b : β}
    (h : r.map f = .ok b) : ∃ a, r = .ok a ∧ f a = b := by
  cases r with
  | error _ => cases h
  | ok a => exact ⟨a, rfl, Except.ok.inj h⟩

theorem Outcome.result_map {ε α β : Type} (f : α → β) (o : Outcome ε α) :
    (o.map f).result = o.result.map f := rfl

/-- What the text means, if parsing it ends well. -/
def Outcome.meaning? {α : Type} (r : Except Violation (Outcome ParseError α)) : Option α :=
  r.toOption.bind (·.result.toOption)

theorem Outcome.exists_of_meaning? {α : Type} {r : Except Violation (Outcome ParseError α)} {a : α}
    (h : meaning? r = some a) : ∃ o, r = .ok o ∧ o.result = .ok a := by
  rcases r with _ | ⟨_ | b, _, _⟩
  · cases h
  · cases h
  · exact ⟨_, rfl, congrArg Except.ok (Option.some.inj h)⟩

theorem Outcome.meaning?_of_result {α : Type} {r : Except Violation (Outcome ParseError α)}
    {o : Outcome ParseError α} (ho : r = .ok o) {a : α} (hr : o.result = .ok a) :
    meaning? r = some a := by
  subst ho
  show o.result.toOption = some a
  rw [hr]
  rfl

/-- Why the text means nothing, if it does not. -/
def Outcome.error? {α : Type} (r : Except Violation (Outcome ParseError α)) : Option ParseError :=
  r.toOption.bind fun o => match o.result with
    | .error e => some e
    | .ok _ => none

theorem Outcome.exists_of_error? {α : Type} {r : Except Violation (Outcome ParseError α)}
    {e : ParseError} (h : error? r = some e) : ∃ o, r = .ok o ∧ o.result = .error e := by
  rcases r with _ | ⟨_ | b, _, _⟩
  · cases h
  · exact ⟨_, rfl, congrArg Except.error (Option.some.inj h)⟩
  · cases h

theorem Outcome.error?_of_result {α : Type} {r : Except Violation (Outcome ParseError α)}
    {o : Outcome ParseError α} (ho : r = .ok o) {e : ParseError} (he : o.result = .error e) :
    error? r = some e := by
  subst ho
  rcases o with ⟨_ | _, _, _⟩
  · exact congrArg some (Except.error.inj he)
  · cases he

/-- What a text of the kind means when it consists of the definitions. -/
def SourceKind.ofDefinitions (ts : List Tree) : SourceKind → Parsed
  | document => .document ⟨ts⟩
  | schema => .schema (.ofDefinitions ts)

section Outcome

variable (kind : SourceKind) (source : String) (name : Option String) (limit : Nat)
  (files : FileSet)

theorem textTokens_eq_slice (base : Nat) :
    textTokens source =
      (slice (tape source base) 0 (tokenCount source)).map PlacedToken.bare := by
  rw [textTokens, sourceTokens_eq_map source ({} : LineLog), List.range_succ, List.map_append,
    List.map_singleton, List.dropLast_concat, slice, Nat.sub_zero, ← List.range_eq_range',
    List.map_map, List.map_map]
  rfl

theorem SourceKind.steady_grammar : kind.grammar.steady = true := by
  cases kind with
  | document => exact Grammar.steady_executableDocument
  | schema => exact Grammar.steady_typeSystemDocument

theorem SourceKind.decides_grammar : kind.grammar.decides Grammar.atEnd = true := by
  cases kind with
  | document => exact Grammar.decides_executableDocument
  | schema => exact Grammar.decides_typeSystemDocument

theorem SourceKind.bracketed_grammar : kind.grammar.bracketed = true := by
  cases kind with
  | document => exact Grammar.bracketed_executableDocument
  | schema => exact Grammar.bracketed_typeSystemDocument

theorem SourceKind.legal_grammar : kind.grammar.toEbnf.legal = true := by
  cases kind <;> rfl

/-- A parse of either kind is a parse of the definitions. -/
theorem parse_eq_map (options : ParserOptions) :
    parse kind source name options files =
      (parseDefinitions kind source name options files).map
        (·.map fun ts => kind.ofDefinitions ts) := by
  cases kind with
  | document =>
    rw [parse, Document.parse]
    rcases parseDefinitions .document source name options files with _ | ⟨_ | _, _, _⟩ <;> rfl
  | schema =>
    rw [parse, Schema.parse]
    rcases parseDefinitions .schema source name options files with _ | ⟨_ | _, _, _⟩ <;> rfl

/-- A parse has an outcome only if there is room for its text. -/
theorem hasRoom_of_parse {options : ParserOptions} {o : Outcome ParseError Parsed}
    (h : parse kind source name options files = .ok o) : files.HasRoom source := by
  rw [parse_eq_map] at h
  obtain ⟨found, h, -⟩ := exists_of_map_eq_ok h
  refine Classical.byContradiction fun full => ?_
  unfold parseDefinitions at h
  have overflows : ¬ files.base + source.utf8ByteSize + 1 ≤ FileSet.maxPos := full
  simp only [FileSet.addFile, if_neg overflows, bind, Except.bind] at h
  cases h

/-- The parser reads the text by the grammar. -/
theorem follows_start :
    Parser.Follows (tape source files.base) limit
      (Lexer.ofSource source (files.nextFile name source))
      (Parser.run limit source.length kind.grammar) 0 kind.grammar ⟨0, 0⟩ :=
  Parser.follows_run (tape_eq_placed source files.base (files.nextFile name source))
    (stop_nth_ofSource_le source (files.nextFile name source))
    (kind_tape_tokenCount source files.base) (tokenCount_le_length source) kind.steady_grammar

theorem reads_or_stops (base : Nat) :
    (∃ ts c', kind.grammar.Reads (tape source base) limit 0 ⟨0, 0⟩ ts c') ∨
      ∃ fault c', kind.grammar.Stops (tape source base) limit 0 ⟨0, 0⟩ fault c' := by
  rcases follows_start kind source none limit { base := base } with
    ⟨ts, c', h, -⟩ | ⟨fault, c', -, h, -, -⟩
  · exact .inl ⟨ts, c', h⟩
  · exact .inr ⟨fault, c', h⟩

variable {kind source limit files}

/-- What becomes of the last state of the parser. -/
theorem parseDefinitions_of_run (room : files.HasRoom source)
    {r : EStateM.Result Halt ParserState (List Tree)}
    (run : Parser.run limit source.length kind.grammar
      (.start source (files.nextFile name source)) = r) :
    match r with
    | .ok ts s =>
      ∃ o, parseDefinitions kind source name ⟨limit⟩ files = .ok o ∧ o.result = .ok ts ∧
        o.files = (files.push (files.nextFile name source)).modifyLast fun _ =>
          s.stream.lexer.lines
    | .error (.rejected e) s =>
      ∃ o, parseDefinitions kind source name ⟨limit⟩ files = .ok o ∧ o.result = .error e ∧
        o.files = (files.push (files.nextFile name source)).modifyLast fun _ =>
          s.stream.lexer.lines
    | .error (.broken v) _ => parseDefinitions kind source name ⟨limit⟩ files = .error v := by
  have run' : EStateM.run (Parser.run limit source.length kind.grammar)
      { stream := { lexer := Lexer.ofSource source (files.nextFile name source) } } = r := run
  unfold parseDefinitions
  have fits : files.base + source.utf8ByteSize + 1 ≤ FileSet.maxPos := room
  simp only [FileSet.addFile, if_pos fits, bind, Except.bind]
  rw [FileSet.nextFile] at run'
  rw [run']
  rcases r with ⟨ts, s⟩ | ⟨e | v, s⟩
  · exact ⟨_, rfl, rfl, rfl⟩
  · exact ⟨_, rfl, rfl, rfl⟩
  · rfl

/-- The file of the text after `n` tokens is the last one of the set. -/
theorem FileSet.modifyLast_after (files : FileSet) (n : Nat) :
    ((files.push (files.nextFile name source)).modifyLast fun _ =>
        ((Lexer.ofSource source (files.nextFile name source)).after n).lines) =
      files.push ((Lexer.ofSource source (files.nextFile name source)).after n).lines :=
  modifyLast_push files _
    (Lexer.sameRange_after (Lexer.ofSource source (files.nextFile name source)) n).2.2

/-- What the grammar reads is what the parser gives. -/
theorem run_of_reads {ts : List Tree} {c' : Cursor}
    (h : kind.grammar.Reads (tape source files.base) limit 0 ⟨0, 0⟩ ts c') :
    Parser.run limit source.length kind.grammar (.start source (files.nextFile name source)) =
      .ok ts (.along (Lexer.ofSource source (files.nextFile name source)) c' 0) := by
  rcases follows_start kind source name limit files with
    ⟨us, c'', h', run⟩ | ⟨fault, c'', e, h', -, -⟩
  · obtain ⟨rfl, rfl⟩ := h.unique h'
    exact run
  · exact absurd h' h.not_stops

/-- Where the grammar stops, the parser stops with an error about the token there. -/
theorem run_of_stops {fault : Fault} {c' : Cursor}
    (h : kind.grammar.Stops (tape source files.base) limit 0 ⟨0, 0⟩ fault c') :
    ∃ e, fault.ReportedAt limit (Lexer.ofSource source (files.nextFile name source)) c' e ∧
      Parser.run limit source.length kind.grammar (.start source (files.nextFile name source)) =
        .error (.rejected e)
          (.along (Lexer.ofSource source (files.nextFile name source)) c' 0) := by
  rcases follows_start kind source name limit files with
    ⟨us, c'', h', -⟩ | ⟨fault', c'', e, h', reported, run⟩
  · exact absurd h h'.not_stops
  · obtain ⟨rfl, rfl⟩ := h.unique h'
    exact ⟨e, reported, run⟩

theorem parseDefinitions_of_reads (room : files.HasRoom source) {ts : List Tree} {c' : Cursor}
    (h : kind.grammar.Reads (tape source files.base) limit 0 ⟨0, 0⟩ ts c') :
    ∃ o, parseDefinitions kind source name ⟨limit⟩ files = .ok o ∧ o.result = .ok ts ∧
      o.files =
        files.push ((Lexer.ofSource source (files.nextFile name source)).after c'.seen).lines := by
  obtain ⟨o, ho, hr, hf⟩ := parseDefinitions_of_run name room (run_of_reads name h)
  exact ⟨o, ho, hr, hf.trans (files.modifyLast_after name c'.seen)⟩

theorem parseDefinitions_of_stops (room : files.HasRoom source) {fault : Fault} {c' : Cursor}
    (h : kind.grammar.Stops (tape source files.base) limit 0 ⟨0, 0⟩ fault c') :
    ∃ e o, parseDefinitions kind source name ⟨limit⟩ files = .ok o ∧ o.result = .error e ∧
      o.files =
        files.push ((Lexer.ofSource source (files.nextFile name source)).after c'.seen).lines ∧
      fault.ReportedAt limit (Lexer.ofSource source (files.nextFile name source)) c' e ∧
      Parser.run limit source.length kind.grammar (.start source (files.nextFile name source)) =
        .error (.rejected e)
          (.along (Lexer.ofSource source (files.nextFile name source)) c' 0) := by
  obtain ⟨e, reported, run⟩ := run_of_stops name h
  obtain ⟨o, ho, he, hf⟩ := parseDefinitions_of_run name room run
  exact ⟨e, o, ho, he, hf.trans (files.modifyLast_after name c'.seen), reported, run⟩

/-- The limit plays a part in a parse only through what the parser does. -/
theorem parse_eq_of_run {most : Nat}
    (same : Parser.run most source.length kind.grammar
        (.start source (files.nextFile name source)) =
      Parser.run limit source.length kind.grammar (.start source (files.nextFile name source))) :
    parse kind source name ⟨most⟩ files = parse kind source name ⟨limit⟩ files := by
  have run : EStateM.run (Parser.run most source.length kind.grammar)
        { stream := { lexer := Lexer.ofSource source (files.nextFile name source) } } =
      EStateM.run (Parser.run limit source.length kind.grammar)
        { stream := { lexer := Lexer.ofSource source (files.nextFile name source) } } := same
  rw [parse_eq_map, parse_eq_map]
  congr 1
  unfold parseDefinitions
  rw [FileSet.nextFile] at run
  by_cases room : files.base + source.utf8ByteSize + 1 ≤ FileSet.maxPos
  · simp only [FileSet.addFile, if_pos room, bind, Except.bind]
    rw [run]
  · simp only [FileSet.addFile, if_neg room, bind, Except.bind]

/-- What was found has been read by the grammar. -/
theorem reads_of_result (room : files.HasRoom source) {o : Outcome ParseError (List Tree)}
    (ho : parseDefinitions kind source name ⟨limit⟩ files = .ok o) {ts : List Tree}
    (hr : o.result = .ok ts) :
    ∃ c', kind.grammar.Reads (tape source files.base) limit 0 ⟨0, 0⟩ ts c' := by
  rcases reads_or_stops kind source limit files.base with ⟨us, c', reads⟩ | ⟨fault, c', stops⟩
  · obtain ⟨o', ho', hr', -⟩ := parseDefinitions_of_reads name room reads
    obtain rfl : o = o' := Except.ok.inj (ho.symm.trans ho')
    obtain rfl : ts = us := Except.ok.inj (hr.symm.trans hr')
    exact ⟨c', reads⟩
  · obtain ⟨e, o', ho', hr', -, -⟩ := parseDefinitions_of_stops name room stops
    obtain rfl : o = o' := Except.ok.inj (ho.symm.trans ho')
    rw [hr] at hr'
    cases hr'

/-- A parse of either kind gives the definitions that it has read. -/
theorem reads_of_parse {o : Outcome ParseError Parsed}
    (ho : parse kind source name ⟨limit⟩ files = .ok o) {parsed : Parsed}
    (hr : o.result = .ok parsed) :
    ∃ ts c', parsed = kind.ofDefinitions ts ∧
      kind.grammar.Reads (tape source files.base) limit 0 ⟨0, 0⟩ ts c' := by
  have room := hasRoom_of_parse kind source name files ho
  rw [parse_eq_map] at ho
  obtain ⟨found, parsing, rfl⟩ := exists_of_map_eq_ok ho
  obtain ⟨ts, hts, rfl⟩ := exists_of_map_eq_ok hr
  obtain ⟨c', reads⟩ := reads_of_result name room parsing hts
  exact ⟨ts, c', rfl, reads⟩

/-! ## The whole text -/

/-- A repetition ends where its test fails. -/
theorem Grammar.Reads.many_ends {tape : Nat → PlacedToken} {d : Nat} {test : Lookahead}
    {g : Grammar} {c c' : Cursor} {ts : List Tree}
    (h : Reads tape limit d (.many test g) c ts c') : test.passes tape c'.index = false := by
  generalize hm : Grammar.many test g = m at h
  induction h with
  | ends failed =>
    cases hm
    simpa using failed
  | again _ _ _ _ ih => exact ih hm
  | _ => cases hm

variable (kind) in
/-- A document is read up to the end of the text. -/
theorem reads_ends {base : Nat} {ts : List Tree} {c' : Cursor}
    (h : kind.grammar.Reads (tape source base) limit 0 ⟨0, 0⟩ ts c') :
    c'.index = tokenCount source := by
  have heof := kind_tape_tokenCount source base
  have inside := h.index_le heof kind.steady_grammar (Nat.zero_le _)
  have stop : (tape source base c'.index).token.kind = .eof := by
    have failed : (Lookahead.nextNot (.kind .eof)).passes (tape source base) c'.index = false := by
      cases kind with
      | document => exact h.many_ends
      | schema => exact h.many_ends
    simpa [Lookahead.passes, Terminal.accepts] using failed
  exact Nat.le_antisymm inside
    (Nat.le_of_not_lt fun lt => kind_tape_ne_eof source base lt stop)

variable (kind) in
/-- What is read has no malformed tokens, so they all end where they are reckoned to. -/
theorem ending_eq_stop {base : Nat} {ts : List Tree}
    (h : kind.grammar.toEbnf.Derives (slice (tape source base) 0 (tokenCount source)) ts) :
    ∀ x ∈ slice (tape source base) 0 (tokenCount source), x.ending = x.stop := by
  intro x hx
  have legal := h.legal kind.legal_grammar x hx
  obtain ⟨n, -, hn, rfl⟩ := mem_slice.mp hx
  exact Lexer.ending_placed _ base (kind_nth_ne_eof source ({} : LineLog) hn) legal

theorem slice_bare (tape : Nat → PlacedToken) (i j : Nat) :
    slice (fun n => (tape n).bare) i j = (slice tape i j).map PlacedToken.bare := by
  rw [slice, slice, List.map_map]
  rfl

/-- Every derivation of a text is a reading of its bare tokens. -/
theorem reads_bare {us : List Tree} (h : kind.grammar.toEbnf.Derives (textTokens source) us)
    (deep : levels (textTokens source) ≤ limit) :
    ∃ c', kind.grammar.Reads (fun n => (tape source 0 n).bare) limit 0 ⟨0, 0⟩ us c' := by
  have eof : Opening.SomeFits (fun n => (tape source 0 n).bare) (tokenCount source)
      Grammar.atEnd := Grammar.someFits_atEnd (kind_tape_tokenCount source 0)
  rw [textTokens_eq_slice source 0, ← slice_bare] at h deep
  have affords : 0 + levels (slice (fun n => (tape source 0 n).bare) 0 (tokenCount source)) ≤
      limit := by rwa [Nat.zero_add]
  obtain ⟨c', hr, -⟩ := Grammar.reads_of_derives (d := 0) (c := ⟨0, 0⟩) kind.decides_grammar
    kind.bracketed_grammar (Nat.zero_le _) h eof affords
  exact ⟨c', hr⟩

/-- A text has at most one derivation. -/
theorem derives_unique {us vs : List Tree}
    (hu : kind.grammar.toEbnf.Derives (textTokens source) us)
    (hv : kind.grammar.toEbnf.Derives (textTokens source) vs) : us = vs := by
  obtain ⟨c', ru⟩ := reads_bare hu (Nat.le_refl _)
  obtain ⟨c'', rv⟩ := reads_bare hv (Nat.le_refl _)
  exact (ru.unique rv).1

/-- What is read is derivable. -/
theorem derives_of_reads {base : Nat} {ts : List Tree} {c' : Cursor}
    (h : kind.grammar.Reads (tape source base) limit 0 ⟨0, 0⟩ ts c') :
    kind.grammar.toEbnf.Derives (textTokens source) (Tree.bareOf ts) := by
  rw [textTokens_eq_slice source base, ← reads_ends kind h]
  exact h.derives.bare

/-- What is derivable is read, if enough levels are allowed. -/
theorem reads_of_derivable {us : List Tree} (base : Nat)
    (h : kind.grammar.toEbnf.Derives (textTokens source) us)
    (deep : levels (textTokens source) ≤ limit) :
    ∃ ts c', kind.grammar.Reads (tape source base) limit 0 ⟨0, 0⟩ ts c' := by
  obtain ⟨c', bare⟩ := reads_bare h deep
  -- positions play no part, so where the text stops its bare tokens would stop too
  refine (reads_or_stops kind source limit base).resolve_right fun ⟨fault, c'', stops⟩ => ?_
  refine bare.not_stops (stops.transfer (fun i _ => ?_) (Nat.le_refl _))
  rfl

variable (kind) in
/-- A text for which there is room has an outcome. It is accepted if and only if it is derivable,
and then what was found is its derivation. -/
theorem definitions_iff (room : files.HasRoom source)
    (deep : levels (textTokens source) ≤ limit) :
    ∃ o, parseDefinitions kind source name ⟨limit⟩ files = .ok o ∧
      (o.result.isOk = true ↔ ∃ us, kind.grammar.toEbnf.Derives (textTokens source) us) ∧
      ∀ ts, o.result = .ok ts → ∀ us,
        kind.grammar.toEbnf.Derives (textTokens source) us ↔ us = Tree.bareOf ts := by
  rcases reads_or_stops kind source limit files.base with ⟨ts, c', reads⟩ | ⟨fault, c', stops⟩
  · obtain ⟨o, ho, hr, -⟩ := parseDefinitions_of_reads name room reads
    have derives := derives_of_reads reads
    have accepted : o.result.isOk = true := by
      rw [hr]
      rfl
    refine ⟨o, ho, iff_of_true accepted ⟨_, derives⟩, ?_⟩
    intro ts' hts us
    obtain rfl : ts = ts' := Except.ok.inj (hr.symm.trans hts)
    constructor
    · intro h
      exact derives_unique h derives
    · rintro rfl
      exact derives
  · obtain ⟨e, o, ho, hr, -, -⟩ := parseDefinitions_of_stops name room stops
    have rejected : ¬ o.result.isOk = true := by
      rw [hr]
      exact Bool.noConfusion
    refine ⟨o, ho, iff_of_false rejected ?_, ?_⟩
    · rintro ⟨us, h⟩
      obtain ⟨ts, c'', reads⟩ := reads_of_derivable files.base h deep
      exact absurd stops reads.not_stops
    · intro ts hts
      rw [hr] at hts
      cases hts

end Outcome

end GraphQL
