import GraphQL.Proofs.Parsing.Nesting
import GraphQL.Proofs.Reading.Lifted

/-!
# Where the limit is reported

A text is rejected for its nesting at a token that opens a construct inside as many others as are
allowed, or at a token that stands where an opening brace is missing inside as many others. In the
second case the text is not nested too deeply at all, and every greater limit has the missing brace
reported at the same token.

Results:
1. `opensAt_of_resumes`: a token that the reading gets beyond under a greater limit opens a
   construct.
2. `limit_reported`: which of the two it is that the limit is reported for.
3. `limit_reported_unopened`: an inline fragment without its selection set.
-/

namespace GraphQL

/-- The token with number `i` opens a construct that has `d` levels around it: there is a text that
starts with the same tokens, up to this one, and is accepted whenever enough levels are allowed, and
the first construct of its tree with so many levels around it starts with this token. -/
def OpensAt (kind : SourceKind) (source : String) (d i : Nat) : Prop :=
  ∃ (new : String) (least : Nat), SameStart (i + 1) source new ∧
    ∀ (limit : Nat) (name : Option String) (files : FileSet), least ≤ limit → files.HasRoom new →
      ∃ o parsed u t, parse kind new name ⟨limit⟩ files = .ok o ∧ o.result = .ok parsed ∧
        (parsed.tree.levelNodes 0).find? (·.1 = d) = some (d, u) ∧
        (sourceTokens new)[i]? = some t ∧ u.tokens.head? = some (t.placed files.base)

theorem SourceKind.heeds_grammar (kind : SourceKind) : kind.grammar.heeds none = true := by
  cases kind with
  | document => exact Grammar.heeds_executableDocument
  | schema => exact Grammar.heeds_typeSystemDocument

section Limit

variable {kind : SourceKind} {source : String} {limit base : Nat} {c : Cursor}

theorem SameStart.of_le {n m : Nat} {other : String} (h : SameStart m source other) (le : n ≤ m) :
    SameStart n source other := by
  have shorter := congrArg (List.take n) h
  rwa [List.take_take, List.take_take, Nat.min_eq_left le] at shorter

/-- A text that is stopped by the limit and accepted without it has its first construct with as many
levels around it there. -/
theorem firstTooDeep_of_reads {most : Nat} {ts : List Tree} {c' : Cursor}
    (h : kind.grammar.Reads (tape source base) most 0 ⟨0, 0⟩ ts c')
    (stops : kind.grammar.Stops (tape source base) limit 0 ⟨0, 0⟩ .tooDeep c) :
    Tree.FirstTooDeep limit 0 ts (tape source base c.index) := by
  rcases Nat.lt_or_ge limit (0 + Tree.nestingOf ts) with deep | room
  · obtain ⟨c₁, stops', -, first, -⟩ := h.exceeds kind.levelled_grammar kind.bracketed_grammar rfl
      (Nat.zero_le limit) deep
    obtain ⟨-, rfl⟩ := stops.unique stops'
    exact first
  · exact absurd stops (h.within kind.levelled_grammar rfl room).not_stops

/-- If reading gets beyond the token at which the limit stops it, this token opens a construct. -/
theorem opensAt_of_resumes
    (stops : kind.grammar.Stops (tape source base) limit 0 ⟨0, 0⟩ .tooDeep c)
    (resumes : kind.grammar.Resumes (tape source base) limit 0 ⟨0, 0⟩ c) :
    OpensAt kind source limit c.index := by
  -- with a greater limit the tokens up to this one turn out to be the beginning of a text
  have continued : ∃ new, SameStart (c.index + 1) source new ∧
      ∃ ts, kind.grammar.toEbnf.Derives (textTokens new) ts := by
    rcases reads_or_stops kind source (limit + 1) base with ⟨ts, c', reads⟩ | ⟨fault, c', stops'⟩
    · exact ⟨source, rfl, _, derives_of_reads reads⟩
    · have beyond := resumes _ (Nat.lt_succ_self limit) c' (.inr ⟨fault, stops'⟩)
      obtain ⟨new, start, derivable⟩ := exists_accepted stops'
      exact ⟨new, start.of_le beyond, derivable⟩
  obtain ⟨new, start, ts, derives⟩ := continued
  refine ⟨new, levels (textTokens new), start, fun limit' name files enough room => ?_⟩
  obtain ⟨us, c', reads⟩ := reads_of_derivable files.base derives enough
  have stops' := stops_of_sameStart stops start files.base
  obtain ⟨u, found, head⟩ := firstTooDeep_of_reads reads stops'
  obtain ⟨o, ho, hr, -⟩ := parse_reads name room reads
  refine ⟨o, _, u, _, ho, hr, ?_, getElem?_sourceTokens ({} : LineLog) (index_le_of_stops stops'),
    head⟩
  rwa [tree_ofDefinitions_of_reads reads, levelNodes_root]

/-- When a text is rejected for its nesting, the limit is the one that was given, and the token at
the place of the error either opens a construct with just as many levels around it, or stands where
a brace is missing: then every greater limit has the text rejected at the same token because of
that. -/
theorem limit_reported (kind : SourceKind) (source : String) (name : Option String) (limit : Nat)
    (files : FileSet) {o : Outcome ParseError Parsed}
    (ho : parse kind source name ⟨limit⟩ files = .ok o) {place : Position} {most : Nat}
    (he : o.result = .error (.nestingTooDeep place most)) :
    most = limit ∧ ∃ i t, (sourceTokens source)[i]? = some t ∧ place.offset = t.start ∧
      ((t.token.opensLevel = true ∧ OpensAt kind source limit i) ∨
        (t.token.kind ≠ .braceOpen ∧
          ∀ (limit' : Nat) (name' : Option String) (files' : FileSet), limit < limit' →
            files'.HasRoom source →
            ∃ o' place', parse kind source name' ⟨limit'⟩ files' = .ok o' ∧
              o'.result = .error (.unexpectedToken place' "\x7b" t.token.describe) ∧
              place'.offset = t.start)) := by
  have room := hasRoom_of_parse kind source name files ho
  obtain ⟨fault, c, stops⟩ := stops_of_error name room ho he
  obtain ⟨o₁, e, t, ho₁, he₁, ht, reported, -⟩ := parse_rejects name room stops
  obtain rfl : o₁ = o := Except.ok.inj (ho₁.symm.trans ho)
  obtain rfl : e = .nestingTooDeep place most := Except.error.inj (he₁.symm.trans he)
  -- only the limit is reported by such an error
  obtain ⟨rfl, offset, rfl⟩ : fault = .tooDeep ∧ place.offset = t.start ∧ most = limit := by
    cases fault with
    | unexpected expected =>
      obtain ⟨p, -, same⟩ := reported
      cases same
    | tooDeep =>
      obtain ⟨p, offset, same⟩ := reported
      obtain ⟨rfl, rfl⟩ := ParseError.nestingTooDeep.inj same
      exact ⟨rfl, offset, rfl⟩
  have token : (tape source files.base c.index).token = t.token := by
    have nth := ht.symm.trans (getElem?_sourceTokens ({} : LineLog) (index_le_of_stops stops))
    rw [Option.some.inj nth]
    rfl
  refine ⟨rfl, c.index, t, ht, offset, ?_⟩
  rcases stops.resumes_or_misses rfl kind.heeds_grammar nofun (Nat.zero_le _) with
    ⟨opens, resumes⟩ | ⟨other, misses⟩
  · exact .inl ⟨token ▸ opens, opensAt_of_resumes stops resumes⟩
  · refine .inr ⟨token ▸ other, fun limit' name' files' more room' => ?_⟩
    have stops' := stops_of_sameStart (misses limit' more) rfl files'.base
    obtain ⟨o', e', t', ho', he', ht', ⟨place', offset', rfl⟩, -⟩ :=
      parse_rejects name' room' stops'
    obtain rfl := Option.some.inj (ht.symm.trans ht')
    exact ⟨o', place', ho', he', offset'⟩

/-- The brace of the inner one of two selection sets is there, and opens it. -/
theorem limit_reported_inner :
    ∃ (o : Outcome ParseError Parsed) (t : SpannedToken),
      parse .document "\x7b a \x7b b \x7d \x7d" none ⟨1⟩ {} = .ok o ∧
      o.result = .error (.nestingTooDeep ⟨"", 4, 1, 5⟩ 1) ∧
      (sourceTokens "\x7b a \x7b b \x7d \x7d")[2]? = some t ∧ t.start = 4 ∧
      OpensAt .document "\x7b a \x7b b \x7d \x7d" 1 2 := by
  have failure : Outcome.error? (parse .document "\x7b a \x7b b \x7d \x7d" none ⟨1⟩ {}) =
      some (.nestingTooDeep ⟨"", 4, 1, 5⟩ 1) := by
    decide +kernel
  have count : (sourceTokens "\x7b a \x7b b \x7d \x7d").length = 7 := by decide +kernel
  have only : ∀ j < 7,
      (sourceTokens "\x7b a \x7b b \x7d \x7d")[j]?.map (·.start) = some 4 → j = 2 := by
    decide +kernel
  have brace :
      (sourceTokens "\x7b a \x7b b \x7d \x7d")[2]?.map (·.token.kind) = some .braceOpen := by
    decide +kernel
  obtain ⟨o, ho, he⟩ := Outcome.exists_of_error? failure
  obtain ⟨-, i, t, ht, offset, cases⟩ :=
    limit_reported .document "\x7b a \x7b b \x7d \x7d" none 1 {} ho he
  obtain rfl : i = 2 := by
    refine only i (count ▸ (List.getElem?_eq_some_iff.mp ht).1) ?_
    rw [ht]
    exact congrArg some offset.symm
  rw [ht] at brace
  rcases cases with ⟨-, opens⟩ | ⟨other, -⟩
  · exact ⟨o, t, ho, he, ht, offset.symm, opens⟩
  · exact absurd (Option.some.inj brace) other

/-- The limit is reported for the brace that closes a selection set, which opens nothing. With one
level more it is reported that this brace is not the one that should stand there. -/
theorem limit_reported_unopened :
    (sourceTokens "\x7b ... on T \x7d")[4]?.map (fun t => (t.start, t.token.opensLevel)) =
        some (11, false) ∧
      Outcome.error? (parse .document "\x7b ... on T \x7d" none ⟨1⟩ {}) =
        some (.nestingTooDeep ⟨"", 11, 1, 12⟩ 1) ∧
      Outcome.error? (parse .document "\x7b ... on T \x7d" none ⟨2⟩ {}) =
        some (.unexpectedToken ⟨"", 11, 1, 12⟩ "\x7b" "\x7d") := by
  decide +kernel

end Limit

end GraphQL
