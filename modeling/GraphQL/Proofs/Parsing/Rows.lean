import GraphQL.Proofs.Parsing.Nesting
import GraphQL.Proofs.Parsing.Relocation
import GraphQL.Proofs.Reading.Greedy

/-!
# Rows of definitions

A text of either kind is a row of definitions up to its end. What is derivable from the grammar of
the row, and keeps to the limit on nesting, is read, and a token that is not expected cannot come
where it stands, whatever may follow.

Results:
1. `exists_reads`: what is derivable is read.
2. `not_begins_of_stops`: what is not expected does not begin a text.
3. `meaning?_of_reads`, `reads_of_meaning`, `error?_of_stops`, `stops_of_error?`: what a parse comes
   to and how the grammar reads the text.
-/

namespace GraphQL

/-- The definitions of a text, in source order. -/
def Parsed.definitions : Parsed → List Tree
  | document d => d.definitions
  | schema s => s.definitions

/-- The definitions in the groups in which they are kept. -/
def Parsed.groups : Parsed → List (List Tree)
  | document d => [d.definitions]
  | schema s => s.groups

namespace SourceKind

/-- One definition of a text of the kind. -/
def definition : SourceKind → Grammar
  | document => .executableDefinition
  | schema => .typeSystemDefinition

variable (kind : SourceKind)

theorem grammar_eq_many : kind.grammar = .many (.nextNot (.kind .eof)) kind.definition := by
  cases kind <;> rfl

theorem toEbnf_grammar : kind.grammar.toEbnf = .star kind.definition.toEbnf := by
  cases kind <;> rfl

theorem greedy_definition : kind.definition.greedy = true := by
  cases kind with
  | document => exact Grammar.greedy_executableDefinition
  | schema => exact Grammar.greedy_typeSystemDefinition

theorem tidies_definition : kind.definition.tidies none = some none := by
  cases kind <;> decide +kernel

theorem consumes_definition : kind.definition.toEbnf.consumes = true := by
  cases kind <;> rfl

theorem single_definition : kind.definition.toEbnf.single = true := by
  cases kind <;> rfl

theorem bracketed_definition : kind.definition.bracketed = true := by
  cases kind <;> rfl

theorem keeps_definition (s : Side) : kind.definition.toEbnf.keeps s = true := by
  cases kind <;> cases s <;> rfl

theorem edged_definition : kind.definition.toEbnf.edged = true := by
  cases kind <;> decide +kernel

end SourceKind

namespace Tree

mutual

theorem nesting_shift (n : Int) : ∀ t : Tree, (t.shift n).nesting = t.nesting
  | token x => by simp [nesting]
  | node k ps => by rw [shift, nesting_node, nesting_node, nestingOf_shiftOf n ps]

theorem nestingOf_shiftOf (n : Int) : ∀ ts : List Tree, nestingOf (shiftOf n ts) = nestingOf ts
  | [] => by simp [shiftOf, nestingOf]
  | t :: ts => by simp [shiftOf, nestingOf, nesting_shift n t, nestingOf_shiftOf n ts]

end

theorem nesting_le_of_mem {t : Tree} {ts : List Tree} (h : t ∈ ts) : t.nesting ≤ nestingOf ts := by
  obtain ⟨before, after, rfl⟩ := List.append_of_mem h
  rw [nestingOf_append, nestingOf]
  exact Nat.le_trans (Nat.le_max_left _ _) (Nat.le_max_right _ _)

end Tree

/-- Each construct of a row is described by itself. -/
theorem Ebnf.Derives.exists_item {e : Ebnf} (single : e.single = true) {tape : Nat → PlacedToken}
    {i j : Nat} (hij : i ≤ j) {ts : List Tree} (h : (Ebnf.star e).Derives (slice tape i j) ts)
    {t : Tree} (ht : t ∈ ts) :
    ∃ m n, i ≤ m ∧ m ≤ n ∧ n ≤ j ∧ e.Derives (slice tape m n) [t] := by
  generalize hs : Ebnf.star e = s at h
  generalize hx : slice tape i j = xs at h
  induction h generalizing i with
  | starNil => cases ht
  | @starCons f xs ys ts us first _ _ ih =>
    obtain rfl : e = f := Ebnf.star.inj hs
    obtain ⟨m, him, hmj, rfl, hys⟩ := slice_eq_append hij hx
    obtain ⟨k, -, ps, rfl⟩ := first.exists_node single
    rcases List.mem_cons.mp ht with rfl | ht
    · exact ⟨i, m, Nat.le_refl _, him, hmj, first⟩
    · obtain ⟨n, o, hmn, hno, hoj, item⟩ := ih hmj ht rfl hys
      exact ⟨n, o, Nat.le_trans him hmn, hno, hoj, item⟩
  | _ => cases hs

section Rows

variable {kind : SourceKind} {source : String} {limit base : Nat} {ts : List Tree}
  {c c' : Cursor}

/-! ## Texts that are read -/

/-- What is read keeps to the limit. -/
theorem nestingOf_le_of_reads (h : kind.grammar.Reads (tape source base) limit 0 c ts c') :
    Tree.nestingOf ts ≤ limit := by
  refine Nat.le_of_not_lt fun deep => ?_
  obtain ⟨c'', stops, -⟩ := h.exceeds kind.levelled_grammar kind.bracketed_grammar rfl
    (Nat.zero_le limit) (by rwa [Nat.zero_add])
  exact h.not_stops stops

/-- What is derivable, up to the end of a tape, and keeps to the limit is read. -/
theorem exists_reads {tape : Nat → PlacedToken} {n : Nat} (eof : (tape n).token.kind = .eof)
    (h : kind.grammar.toEbnf.Derives (slice tape 0 n) ts) (shallow : Tree.nestingOf ts ≤ limit) :
    ∃ c', kind.grammar.Reads tape limit 0 ⟨0, 0⟩ ts c' := by
  have affords : 0 + levels (slice tape 0 n) ≤ levels (slice tape 0 n) :=
    Nat.le_of_eq (Nat.zero_add _)
  obtain ⟨c', reads, -⟩ := Grammar.reads_of_derives (c := ⟨0, 0⟩) kind.decides_grammar
    kind.bracketed_grammar (Nat.zero_le n) h (Grammar.someFits_atEnd eof) affords
  exact ⟨c', reads.within kind.levelled_grammar rfl (by rwa [Nat.zero_add])⟩

/-- The definitions that have been read are those of the document or schema. -/
theorem definitions_ofDefinitions (h : kind.grammar.Reads (tape source base) limit 0 ⟨0, 0⟩ ts c') :
    (kind.ofDefinitions ts).definitions = ts := by
  cases kind with
  | document => rfl
  | schema => exact definitions_of_reads source limit h

/-- The groups of two rows of definitions. -/
theorem groups_append (ts us : List Tree) :
    (kind.ofDefinitions (ts ++ us)).groups =
      List.zipWith (· ++ ·) (kind.ofDefinitions ts).groups (kind.ofDefinitions us).groups := by
  cases kind with
  | document => rfl
  | schema => simp [SourceKind.ofDefinitions, Parsed.groups, Schema.groups, Schema.ofDefinitions]

/-- The groups of moved definitions. -/
theorem groups_shift (n : Int) (ts : List Tree) :
    (kind.ofDefinitions (ts.map (Tree.shift n))).groups =
      (kind.ofDefinitions ts).groups.map (List.map (Tree.shift n)) := by
  cases kind with
  | document => rfl
  | schema =>
    simp [SourceKind.ofDefinitions, Parsed.groups, Schema.groups, Schema.ofDefinitions,
      Tree.filter_isKind_shift]

/-! ## Texts that are not read -/

/-- A text that is rejected has a token. -/
theorem tokenCount_pos_of_stops {fault : Fault}
    (h : kind.grammar.Stops (tape source base) limit 0 ⟨0, 0⟩ fault c) : 0 < tokenCount source := by
  refine Nat.pos_of_ne_zero fun none => ?_
  have eof := kind_tape_tokenCount source base
  rw [none] at eof
  rw [kind.grammar_eq_many] at h
  refine Grammar.Reads.not_stops (.ends ?_) h
  simp [Lookahead.passes, Terminal.accepts, eof]

theorem head?_textTokens_eq_some_iff (base : Nat) {y : PlacedToken} :
    (textTokens source).head? = some y ↔
      0 < tokenCount source ∧ (tape source base 0).bare = y := by
  rw [textTokens_eq_slice source base, List.head?_map]
  rcases Nat.eq_zero_or_pos (tokenCount source) with none | some
  · simp [none]
  · simp [head?_slice some, some]

/-- A token that is not expected cannot come behind the tokens in front of it. -/
theorem not_begins_of_stops {expected : String}
    (h : kind.grammar.Stops (tape source base) limit 0 ⟨0, 0⟩ (.unexpected expected) c) :
    ¬ kind.grammar.toEbnf.Begins
      ((slice (tape source base) 0 (c.index + 1)).map PlacedToken.bare) := by
  rintro ⟨ws, us, -, derives⟩
  obtain ⟨whole, split⟩ : ∃ whole, whole =
      (slice (tape source base) 0 (c.index + 1)).map PlacedToken.bare ++ Ebnf.written ws := ⟨_, rfl⟩
  -- the longer text is read on a tape that has nothing else
  obtain ⟨tape', tokens, row⟩ := exists_tape whole ⟨⟨.eof, ""⟩, .none, .none⟩
  rw [← split, ← List.take_length (l := whole), ← row _ (Nat.le_refl _)] at derives
  obtain ⟨c', reads⟩ := exists_reads (by simp [tokens]) derives (Nat.le_refl _)
  have same (i : Nat) (hi : i < c.index + 1) : (tape' i).token = (tape source base i).token := by
    rw [tokens, split, List.getElem?_append_left (by simpa using hi)]
    simp [slice, hi, PlacedToken.bare]
  have other : Fault.unexpected expected ≠ .tooDeep := Fault.noConfusion
  rcases (h.transfer same (Nat.le_of_eq (seen_eq_of_stops h))).limited kind.levelled_grammar
    kind.bracketed_grammar rfl (Nat.zero_le (Tree.nestingOf us)) other with stops | ⟨c'', stops, -⟩
  · exact reads.not_stops stops
  · exact reads.not_stops stops

/-- A schema that does not start with a name is rejected for its first token. -/
theorem stops_of_kind_ne_name (some : (tape source base 0).token.kind ≠ .eof)
    (other : (tape source base 0).token.kind ≠ .name) :
    Grammar.typeSystemDocument.Stops (tape source base) limit 0 ⟨0, 0⟩
      (.unexpected ("schema or scalar or type or interface or union or enum or input or " ++
        "extend or directive")) ⟨0, 1⟩ := by
  have refuses (k : Keyword) :
      (Lookahead.next (.keyword k)).passes (tape source base) 0 = false := by
    simp [Lookahead.passes, Terminal.accepts, Token.isKeyword, other]
  have starts : (Lookahead.nextNot (.kind .eof)).passes (tape source base) 0 = true := by
    simp [Lookahead.passes, Terminal.accepts, some]
  exact .item starts (.no (refuses _) (.no (refuses _) (.no (refuses _) (.no (refuses _)
    (.no (refuses _) (.no (refuses _) (.no (refuses _) (.no (refuses _) (.no (refuses _)
      .fail)))))))))

/-! ## Outcomes -/

variable (name : Option String) {files : FileSet}

theorem meaning?_of_reads (room : files.HasRoom source)
    (h : kind.grammar.Reads (tape source files.base) limit 0 ⟨0, 0⟩ ts c) :
    Outcome.meaning? (parse kind source name ⟨limit⟩ files) = some (kind.ofDefinitions ts) := by
  obtain ⟨o, ho, hr, -⟩ := parse_reads name room h
  exact Outcome.meaning?_of_result ho hr

theorem reads_of_meaning {parsed : Parsed}
    (h : Outcome.meaning? (parse kind source name ⟨limit⟩ files) = some parsed) :
    ∃ ts c, parsed = kind.ofDefinitions ts ∧
      kind.grammar.Reads (tape source files.base) limit 0 ⟨0, 0⟩ ts c := by
  obtain ⟨o, ho, hr⟩ := Outcome.exists_of_meaning? h
  exact reads_of_parse name ho hr

/-- Where the grammar stops there is an error about the token there. -/
theorem error?_of_stops (positive : 0 < files.base) (room : files.HasRoom source) {fault : Fault}
    (h : kind.grammar.Stops (tape source files.base) limit 0 ⟨0, 0⟩ fault c) :
    Outcome.error? (parse kind source name ⟨limit⟩ files) =
      some (fault.error limit
        (textPlace source (name.getD "") ((Lexer.ofSource source ({} : LineLog)).nth c.index).start)
        ((Lexer.ofSource source ({} : LineLog)).nth c.index).token) := by
  obtain ⟨o, e, ho, he, -, reported, -⟩ := parse_stops name room h
  rw [← eq_error_of_reportedAt name positive h.index_lt_seen reported]
  exact Outcome.error?_of_result ho he

theorem hasRoom_of_error? {e : ParseError}
    (h : Outcome.error? (parse kind source name ⟨limit⟩ files) = some e) :
    files.HasRoom source := by
  obtain ⟨o, ho, -⟩ := Outcome.exists_of_error? h
  exact hasRoom_of_parse kind source name files ho

theorem stops_of_error? {e : ParseError}
    (h : Outcome.error? (parse kind source name ⟨limit⟩ files) = some e) :
    ∃ fault c, kind.grammar.Stops (tape source files.base) limit 0 ⟨0, 0⟩ fault c := by
  obtain ⟨o, ho, he⟩ := Outcome.exists_of_error? h
  exact stops_of_error name (hasRoom_of_error? name h) ho he

end Rows

end GraphQL
