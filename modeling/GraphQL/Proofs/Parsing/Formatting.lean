import GraphQL.Proofs.Lexing.Formatting
import GraphQL.Proofs.Parsing.Errors
import GraphQL.Proofs.Parsing.Spans

/-!
# Formatting does not matter

What a text parses to depends on the kinds and texts of its tokens alone. Two texts that agree in
these are both accepted, with the same tree but for positions, or both rejected, for the same reason
at the same token. So formatting may be put in wherever it does not change the tokens.

Results:
1. `sameUpToPositions_of_reads`: readings of the same tokens give the same tree but for positions.
2. `formatting_irrelevant`: where formatting changes no token, and that only the tokens count.
-/

namespace GraphQL

/-- The trees, and the groups of schemas, are the same but for positions. -/
def Parsed.SameUpToPositions : Parsed → Parsed → Prop
  | .document d, .document e => d.tree.bare = e.tree.bare
  | .schema s, .schema t =>
    s.tree.bare = t.tree.bare ∧ s.groups.map Tree.bareOf = t.groups.map Tree.bareOf
  | .document _, .schema _ | .schema _, .document _ => False

/-- The errors are the same but for positions. -/
def ParseError.SameReason : ParseError → ParseError → Prop
  | .unexpectedToken _ expected found, .unexpectedToken _ expected' found' =>
    expected = expected' ∧ found = found'
  | .nestingTooDeep _ limit, .nestingTooDeep _ limit' => limit = limit'
  | .unexpectedToken _ _ _, .nestingTooDeep _ _ | .nestingTooDeep _ _, .unexpectedToken _ _ _ =>
    False

theorem Fault.Reported.offset {fault : Fault} {limit : Nat} {t : SpannedToken} {e : ParseError}
    (h : fault.Reported limit t e) : e.position.offset = t.start := by
  cases fault with
  | unexpected expected =>
    obtain ⟨p, offset, rfl⟩ := h
    exact offset
  | tooDeep =>
    obtain ⟨p, offset, rfl⟩ := h
    exact offset

/-- A fault is reported for the same reason at tokens with the same kind and text. -/
theorem Fault.Reported.sameReason {fault : Fault} {limit : Nat} {t t' : SpannedToken}
    {e e' : ParseError} (token : t'.token = t.token) (h : fault.Reported limit t e)
    (h' : fault.Reported limit t' e') : e.SameReason e' := by
  cases fault with
  | unexpected expected =>
    obtain ⟨p, -, rfl⟩ := h
    obtain ⟨p', -, rfl⟩ := h'
    exact ⟨rfl, congrArg Token.describe token.symm⟩
  | tooDeep =>
    obtain ⟨p, -, rfl⟩ := h
    obtain ⟨p', -, rfl⟩ := h'
    rfl

namespace Tree

theorem isKind_bare (k : NodeKind) (t : Tree) : t.bare.isKind k = t.isKind k := by
  cases t with
  | token x => rw [bare_token]; rfl
  | node l ps => rw [bare_node]; rfl

theorem bareOf_filter (k : NodeKind) (ts : List Tree) :
    bareOf (ts.filter (·.isKind k)) = (bareOf ts).filter (·.isKind k) := by
  induction ts with
  | nil => rfl
  | cons t ts ih =>
    rw [bareOf_cons, List.filter_cons, List.filter_cons, isKind_bare]
    split
    · rw [bareOf_cons, ih]
    · exact ih

end Tree

section Formatting

variable {kind : SourceKind} {source other : String} {limit base base' : Nat}

/-- Readings of the same tokens give the same tree but for positions. -/
theorem sameUpToPositions_of_reads {ts us : List Tree} {c c' : Cursor}
    (reads : kind.grammar.Reads (tape source base) limit 0 ⟨0, 0⟩ ts c)
    (reads' : kind.grammar.Reads (tape other base') limit 0 ⟨0, 0⟩ us c')
    (same : Tree.bareOf us = Tree.bareOf ts) :
    (kind.ofDefinitions ts).SameUpToPositions (kind.ofDefinitions us) := by
  have trees : (kind.ofDefinitions ts).tree.bare = (kind.ofDefinitions us).tree.bare := by
    rw [tree_ofDefinitions_of_reads reads, tree_ofDefinitions_of_reads reads', Tree.bare_node,
      Tree.bare_node, same]
  cases kind with
  | document => exact trees
  | schema =>
    refine ⟨trees, ?_⟩
    rw [Schema.groups_ofDefinitions, Schema.groups_ofDefinitions, List.map_map, List.map_map]
    refine List.map_congr_left fun k _ => ?_
    simp only [Function.comp_apply, Tree.bareOf_filter, same]

/-- Formatting at the start of a text or behind a token that is neither malformed nor its end leaves
the kinds and texts of all tokens as they are. Any two texts that agree in the kinds and texts of
their tokens are both accepted under the same limit, with trees that are equal up to positions, or
both rejected with the same kind of error, what was expected and found, or the limit, at the token
of the same number. -/
theorem formatting_irrelevant :
    (∀ (source : String) (front inserted back : List Char), source.toList = front ++ back →
      Separable source front → Trivia.Formatting inserted →
      (sourceTokens (String.ofList (front ++ (inserted ++ back)))).map (·.token) =
        (sourceTokens source).map (·.token)) ∧
    ∀ (kind : SourceKind) (source other : String) (name name' : Option String) (limit : Nat)
      (files files' : FileSet), files.HasRoom source → files'.HasRoom other →
      (sourceTokens other).map (·.token) = (sourceTokens source).map (·.token) →
      ∃ o o', parse kind source name ⟨limit⟩ files = .ok o ∧
        parse kind other name' ⟨limit⟩ files' = .ok o' ∧
        ((∃ parsed parsed', o.result = .ok parsed ∧ o'.result = .ok parsed' ∧
            parsed.SameUpToPositions parsed') ∨
          ∃ (e e' : ParseError) (i : Nat) (t t' : SpannedToken),
            o.result = .error e ∧ o'.result = .error e' ∧ e.SameReason e' ∧
            (sourceTokens source)[i]? = some t ∧ e.position.offset = t.start ∧
            (sourceTokens other)[i]? = some t' ∧ e'.position.offset = t'.start) := by
  refine ⟨fun source front inserted back split separable h => map_token_insert h split separable,
    fun kind source other name name' limit files files' room room' same => ?_⟩
  have tokens (n : Nat) :
      (tape other files'.base n).token = (tape source files.base n).token :=
    token_nth_of_map_eq ({} : LineLog) ({} : LineLog) same n
  rcases reads_or_stops kind source limit files.base with ⟨ts, c, reads⟩ | ⟨fault, c, stops⟩
  · obtain ⟨us, reads', bare⟩ := reads.transfer (fun n _ => tokens n) (Nat.le_refl _)
    obtain ⟨o, ho, hr, -⟩ := parse_reads name room reads
    obtain ⟨o', ho', hr', -⟩ := parse_reads name' room' reads'
    exact ⟨o, o', ho, ho', .inl ⟨_, _, hr, hr', sameUpToPositions_of_reads reads reads' bare⟩⟩
  · have stops' := stops.transfer (fun n _ => tokens n) (Nat.le_refl _)
    obtain ⟨o, e, t, ho, he, ht, reported, -⟩ := parse_rejects name room stops
    obtain ⟨o', e', t', ho', he', ht', reported', -⟩ := parse_rejects name' room' stops'
    have token : t'.token = t.token := by
      have there := congrArg (·[c.index]?) same
      simpa [ht, ht'] using there
    have reason := reported.sameReason token reported'
    exact ⟨o, o', ho, ho', .inr ⟨e, e', c.index, t, t', he, he', reason, ht, reported.offset, ht',
      reported'.offset⟩⟩

/-- A comment leaves the error at the end of the text what it is. -/
theorem formatting_irrelevant_brace :
    ∃ (o : Outcome ParseError Parsed) (e : ParseError) (t : SpannedToken),
      parse .document "\x7b #é\n,a" none ⟨1⟩ {} = .ok o ∧ o.result = .error e ∧
        (ParseError.unexpectedToken ⟨"", 2, 1, 3⟩ "NAME" "EOF").SameReason e ∧
        t ∈ sourceTokens "\x7b #é\n,a" ∧ e.position.offset = t.start := by
  have failure : Outcome.error? (parse .document "\x7ba" none ⟨1⟩ {}) =
      some (.unexpectedToken ⟨"", 2, 1, 3⟩ "NAME" "EOF") := by
    decide +kernel
  obtain ⟨o, ho, he⟩ := Outcome.exists_of_error? failure
  have formatting : Trivia.Formatting [' ', '#', 'é', '\n', ','] :=
    .blank rfl (@Trivia.Formatting.comment ['é'] _ (List.forall_mem_singleton.mpr rfl)
      (.blank rfl .nil))
  have separable : Separable "\x7ba" ['{'] := by
    refine .inr ⟨⟨⟨.braceOpen, "\x7b"⟩, 0, 1⟩, ?_⟩
    decide +kernel
  have same := formatting_irrelevant.1 "\x7ba" ['{'] _ ['a'] rfl separable formatting
  obtain ⟨o₁, o', ho₁, ho', both⟩ := formatting_irrelevant.2 .document "\x7ba"
    "\x7b #é\n,a" none none 1 {} {} (by decide +kernel) (by decide +kernel) same
  obtain rfl := Except.ok.inj (ho.symm.trans ho₁)
  rcases both with ⟨parsed, -, accepted, -⟩ | ⟨e, e', i, -, t', he₁, he', reason, -, -, ht', offset⟩
  · cases he.symm.trans accepted
  · obtain rfl := Except.error.inj (he.symm.trans he₁)
    exact ⟨o', e', t', ho', he', reason, List.mem_of_getElem? ht', offset⟩

end Formatting

end GraphQL
