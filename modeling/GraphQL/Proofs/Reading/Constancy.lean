import GraphQL.Proofs.Ebnf.Checks
import GraphQL.Proofs.Reading.Adequacy

/-!
# The two forms of values

Values with variables are read by the same grammar as constant ones, apart from the variables and
from what is said to be expected. So what the grammar of constant values reads is read in the same
way by the other grammar, and where only the other one can go on there is a variable: the first
dollar sign of what it reads is the token that the grammar of constant values stops at.

Results:
1. `withVariables_constantBody`: how the two grammars are related.
2. `Reads.withVariables`: what is constant is read by both grammars.
3. `Stops.at_variable`: where the two grammars part.
4. `Parser.valuesAgree`: what the parser makes of a value in both forms.
-/

namespace GraphQL

/-- The token is a dollar sign. -/
def PlacedToken.isDollar (x : PlacedToken) : Bool := x.token.kind = .dollar

theorem Ebnf.constant_or {e f : Ebnf} (h : (e.or f).constant = true) :
    e.constant = true ∧ f.constant = true := by
  cases f with
  | never => exact ⟨h, rfl⟩
  | _ => exact Bool.and_eq_true_iff.mp h

namespace Grammar

/-- The grammar with variables wherever it has values. -/
def withVariables : Grammar → Grammar
  | done => done
  | token t => token t
  | separator t => separator t
  | fail expected => fail ("$ or " ++ expected)
  | seq g h => seq g.withVariables h.withVariables
  | choice test g h => choice test g.withVariables h.withVariables
  | many test g => many test g.withVariables
  | node k g => node k g.withVariables
  | nested g => nested g.withVariables
  | call (.value _) => call (.value false)
  | call r => call r

theorem withVariables_constantBody : (constantBody true).withVariables = constantBody false := by
  decide +kernel

variable {tape : Nat → PlacedToken} {limit d : Nat} {g h : Grammar} {c c' c'' : Cursor}
  {ts us : List Tree} {fault : Fault} {t : Terminal}

/-! ## What is constant -/

/-- What a constant grammar reads mentions no variable. -/
theorem Reads.constant (reads : Reads tape limit d g c ts c') (hg : g.toEbnf.constant = true) :
    Tree.allConst ts = true ∧ ∀ n, c.index ≤ n → n < c'.index → (tape n).token.kind ≠ .dollar := by
  obtain ⟨const, tokens⟩ := reads.derives.constant hg
  exact ⟨const, fun n hn hn' => tokens _ (mem_slice.mpr ⟨n, hn, hn', rfl⟩)⟩

/-- What a constant grammar reads has no dollar signs. -/
theorem Reads.find?_isDollar (reads : Reads tape limit d g c ts c')
    (hg : g.toEbnf.constant = true) : (Tree.tokensOf ts).find? PlacedToken.isDollar = none := by
  refine List.find?_eq_none.mpr fun x hx => ?_
  have among := reads.derives.tokensOf_sublist.subset hx
  simpa [PlacedToken.isDollar] using (reads.derives.constant hg).2 x among

/-! ## The grammar with variables -/

/-- A choice looks at the next token itself, so it does not matter whether it has been looked at. -/
theorem reads_choice_peek :
    Reads tape limit d (.choice (.next t) g h) c.peek ts c' ↔
      Reads tape limit d (.choice (.next t) g h) c ts c' := by
  have glance : (Lookahead.next t).glance tape c.peek = (Lookahead.next t).glance tape c := by
    simp [Lookahead.glance, Cursor.peek]
  constructor
  · intro reads
    cases reads with
    | yes passed branch => exact .yes passed (glance ▸ branch)
    | no failed branch => exact .no failed (glance ▸ branch)
  · intro reads
    cases reads with
    | yes passed branch => exact .yes passed (glance.symm ▸ branch)
    | no failed branch => exact .no failed (glance.symm ▸ branch)

/-- What does not start with a dollar sign is read as a value with variables if it is read as a value
that is none. -/
theorem reads_value_iff (other : (tape c.index).token.kind ≠ .dollar) :
    Reads tape limit d (ofRule (.value false)) c ts c' ↔
      Reads tape limit d (constantBody false) c ts c' := by
  have failed : (Lookahead.next (.kind .dollar)).passes tape c.index = false := by
    simpa [Lookahead.passes, Terminal.accepts] using other
  constructor
  · intro reads
    cases reads with
    | yes passed _ => exact absurd passed (by simp [failed])
    | no _ body => exact reads_choice_peek.mp body
  · intro reads
    exact .no failed (reads_choice_peek.mpr reads)

/-- What is constant is read in the same way by the grammar with variables. -/
theorem Reads.withVariables (reads : Reads tape limit d g c ts c')
    (hg : g.toEbnf.constant = true) : Reads tape limit d g.withVariables c ts c' := by
  induction reads with
  | done => exact .done
  | token accepted => exact .token accepted
  | separator accepted => exact .separator accepted
  | seq _ _ ihg ihh =>
    simp only [toEbnf, Ebnf.constant, Bool.and_eq_true] at hg
    exact (ihg hg.1).seq (ihh hg.2)
  | yes passed _ ih => exact .yes passed (ih (Ebnf.constant_or hg).1)
  | no failed _ ih => exact .no failed (ih (Ebnf.constant_or hg).2)
  | ends failed => exact .ends failed
  | again passed _ _ ihg ihm => exact .again passed (ihg hg) (ihm hg)
  | node _ ih =>
    simp only [toEbnf, Ebnf.constant, Bool.and_eq_true] at hg
    exact (ih hg.2).node
  | nested room _ ih => exact .nested room (ih hg)
  | @call d r c c' ts body ih =>
    simp only [toEbnf, Ebnf.constant, Bool.or_eq_true, decide_eq_true_eq] at hg
    rcases hg with rfl | rfl
    · exact .call body
    · -- a constant value takes a token, and no token of it is a dollar sign
      have forward : c.index < c'.index := body.index_lt rfl
      have other := (body.constant rfl).2 c.index (Nat.le_refl _) forward
      exact .call ((reads_value_iff other).mpr (withVariables_constantBody ▸ ih rfl))

/-- A constant value cannot start with a dollar sign. -/
theorem stops_constantBody (dollar : (tape c.index).token.kind = .dollar) :
    Stops tape limit d (constantBody true) c (.unexpected (valueStarts true)) c.peek := by
  have failed {k : TokenKind} (other : k ≠ .dollar) :
      (Lookahead.next (.kind k)).passes tape c.index = false := by
    simpa [Lookahead.passes, Terminal.accepts, dollar] using other.symm
  have again : c.peek.peek = c.peek := by
    simp [Cursor.peek]
  -- the first of the six tests looks at the token, and the others look at it again
  have otherwise {k : TokenKind} {g h : Grammar} {fault : Fault} (other : k ≠ .dollar)
      (stops : Stops tape limit d h c.peek fault c.peek) :
      Stops tape limit d (.choice (.next (.kind k)) g h) c.peek fault c.peek := by
    refine .no (failed other) ?_
    rw [Lookahead.glance, again]
    exact stops
  have last : Stops tape limit d (.fail (valueStarts true)) c.peek
      (.unexpected (valueStarts true)) c.peek.peek := .fail
  rw [again] at last
  refine .no (failed (k := .int) (by decide)) ?_
  iterate 5
    refine otherwise ?_ ?_
    · decide
  exact last

/-- A value that starts with a dollar sign is a variable. -/
theorem Reads.eq_variable (reads : Reads tape limit d (ofRule (.value false)) c ts c')
    (dollar : (tape c.index).token.kind = .dollar) :
    ∃ ps, ts = [.node .variable (.token (tape c.index) :: ps)] := by
  have passed : (Lookahead.next (.kind .dollar)).passes tape c.index = true := by
    simpa [Lookahead.passes, Terminal.accepts] using dollar
  cases reads with
  | no failed _ => simp [failed] at passed
  | yes _ body =>
    cases body with
    | node parts =>
      cases parts with
      | seq first name =>
        cases first with
        | token => exact ⟨_, rfl⟩

/-- Where a constant grammar stops and the grammar with variables is read to its end, there is a
variable, and its dollar sign is the first of all that are read. -/
theorem Stops.at_variable (stops : Stops tape limit d g c fault c'')
    (hg : g.toEbnf.constant = true) (reads : Reads tape limit d g.withVariables c ts c') :
    fault = .unexpected (valueStarts true) ∧ Tree.allConst ts = false ∧
      (Tree.tokensOf ts).find? PlacedToken.isDollar = some (tape c''.index) := by
  induction stops generalizing ts c' with
  | token refused => cases reads with | token accepted => simp [refused] at accepted
  | separator refused => cases reads with | separator accepted => simp [refused] at accepted
  | fail => cases reads
  | first _ ih =>
    simp only [toEbnf, Ebnf.constant, Bool.and_eq_true] at hg
    cases reads with
    | seq first second =>
      obtain ⟨rfl, const, found⟩ := ih hg.1 first
      refine ⟨rfl, by simp [const], ?_⟩
      rw [Tree.tokensOf_append, List.find?_append, found, Option.some_or]
  | second before _ ih =>
    simp only [toEbnf, Ebnf.constant, Bool.and_eq_true] at hg
    cases reads with
    | seq first second =>
      obtain ⟨rfl, rfl⟩ := (before.withVariables hg.1).unique first
      obtain ⟨rfl, const, found⟩ := ih hg.2 second
      refine ⟨rfl, by simp [const], ?_⟩
      rw [Tree.tokensOf_append, List.find?_append, before.find?_isDollar hg.1, Option.none_or,
        found]
  | yes passed _ ih =>
    cases reads with
    | yes _ branch => exact ih (Ebnf.constant_or hg).1 branch
    | no failed _ => simp [failed] at passed
  | no failed _ ih =>
    cases reads with
    | yes passed _ => simp [failed] at passed
    | no _ branch => exact ih (Ebnf.constant_or hg).2 branch
  | item passed _ ih =>
    cases reads with
    | ends failed => simp [failed] at passed
    | again _ first others =>
      obtain ⟨rfl, const, found⟩ := ih hg first
      refine ⟨rfl, by simp [const], ?_⟩
      rw [Tree.tokensOf_append, List.find?_append, found, Option.some_or]
  | again passed before _ ih =>
    cases reads with
    | ends failed => simp [failed] at passed
    | again _ first others =>
      obtain ⟨rfl, rfl⟩ := (before.withVariables hg).unique first
      obtain ⟨rfl, const, found⟩ := ih hg others
      refine ⟨rfl, by simp [const], ?_⟩
      rw [Tree.tokensOf_append, List.find?_append, before.find?_isDollar hg, Option.none_or,
        found]
  | node _ ih =>
    simp only [toEbnf, Ebnf.constant, Bool.and_eq_true, decide_eq_true_eq] at hg
    cases reads with
    | node body =>
      obtain ⟨rfl, const, found⟩ := ih hg.2 body
      exact ⟨rfl, by simp [Tree.isConst_node hg.1, const], by simpa [Tree.tokensOf] using found⟩
  | tooDeep deep => cases reads with | nested room _ => exact absurd room deep
  | nested _ _ ih => cases reads with | nested _ body => exact ih hg body
  | @call d r c c'' fault body ih =>
    simp only [toEbnf, Ebnf.constant, Bool.or_eq_true, decide_eq_true_eq] at hg
    rcases hg with rfl | rfl
    · cases reads with
      | call body' => exact absurd body body'.not_stops
    · cases reads with
      | call value =>
        by_cases dollar : (tape c.index).token.kind = .dollar
        · obtain ⟨rfl, rfl⟩ := (stops_constantBody dollar).unique body
          obtain ⟨ps, rfl⟩ := value.eq_variable dollar
          refine ⟨rfl, by simp [Tree.isConst_variable], ?_⟩
          simp [Tree.tokensOf, PlacedToken.isDollar, dollar, Cursor.peek]
        · rw [reads_value_iff dollar, ← withVariables_constantBody] at value
          exact ih rfl value

end Grammar

/-! ## The parser -/

/-- What the two forms of values come to in the same state, `value true` being the constant one and
`value false` the one that may have variables. -/
structure Parser.ValuesAgree (value : Bool → EStateM.Result Halt ParserState (List Tree)) :
    Prop where
  /-- A value that mentions no variable is read in both forms, up to the same state. -/
  const : ∀ ts s', value false = .ok ts s' →
    ∃ v, ts = [v] ∧ (v.isConst = true → value true = .ok [v] s')
  /-- A value that mentions a variable is rejected as a constant one at its first dollar sign. -/
  first : ∀ v s', value false = .ok [v] s' → v.isConst = false →
    ∃ x p s'', v.tokens.find? (·.token.kind = .dollar) = some x ∧
      value true =
        .error (.rejected (.unexpectedToken p (Grammar.valueStarts true) "$")) s'' ∧
      s''.stream.lexer.lines.position x.pos = .ok p
  /-- A constant value is read in the other form as well. -/
  weaken : ∀ ts s', value true = .ok ts s' → value false = .ok ts s'

namespace Parser

variable {tape : Nat → PlacedToken} {limit last size : Nat} {l : Lexer File}

/-- The two forms of values agree wherever the parser may stand. -/
theorem valuesAgree (same : ∀ n, tape n = (l.nth n).placed l.lines.base)
    (fits : ∀ n, (l.nth n).stop ≤ l.lines.size) (heof : (tape last).token.kind = .eof)
    (enough : last ≤ size)
    (marks : ∀ n, (l.nth n).token.kind = .dollar → (l.nth n).token.describe = "$")
    (d seen : Nat) :
    ValuesAgree fun constant =>
      run limit size (.call (.value constant)) (.along l ⟨0, seen⟩ d) := by
  have follows (constant : Bool) :
      Follows tape limit l (run limit size (.call (.value constant))) d (.call (.value constant))
        ⟨0, seen⟩ :=
    follows_run_from same fits heof enough rfl d seen
  rcases follows false with ⟨ts, c', reads, ran⟩ | ⟨fault, c', e, stops, -, ran⟩
  · obtain ⟨v, rfl, -⟩ := reads.derives.isValue
    rcases follows true with ⟨us, c'', reads', ran'⟩ | ⟨fault', c'', e', stops', reported, ran'⟩
    · obtain ⟨rfl, rfl⟩ := (reads'.withVariables rfl).unique reads
      have const : v.isConst = true := by simpa using (reads'.constant rfl).1
      refine ⟨fun ts s' h => ?_, fun w s' h mentions => ?_, fun ts s' h => ?_⟩
      · cases ran.symm.trans h
        exact ⟨v, rfl, fun _ => ran'⟩
      · cases ran.symm.trans h
        rw [const] at mentions
        cases mentions
      · cases ran'.symm.trans h
        exact ran
    · obtain ⟨rfl, mentions, found⟩ := stops'.at_variable rfl reads
      refine ⟨fun ts s' h => ?_, fun w s' h _ => ?_, fun ts s' h => ?_⟩
      · cases ran.symm.trans h
        refine ⟨v, rfl, fun const => ?_⟩
        simp [const] at mentions
      · cases ran.symm.trans h
        obtain ⟨p, resolved, rfl⟩ := reported
        have dollar : (tape c''.index).isDollar = true := List.find?_some found
        rw [same] at dollar found
        have shown := marks c''.index (of_decide_eq_true dollar)
        refine ⟨(l.nth c''.index).placed l.lines.base, p, .along l c'' d, ?_, ?_, resolved⟩
        · rw [Tree.tokensOf, Tree.tokensOf, List.append_nil] at found
          exact found
        · rw [← shown]
          exact ran'
      · cases ran'.symm.trans h
  · refine ⟨fun ts s' h => ?_, fun w s' h _ => ?_, fun ts s' h => ?_⟩
    · cases ran.symm.trans h
    · cases ran.symm.trans h
    · rcases follows true with ⟨us, c'', reads', -⟩ | ⟨fault', c'', e', -, -, ran'⟩
      · exact absurd stops (reads'.withVariables rfl).not_stops
      · cases ran'.symm.trans h

end Parser

end GraphQL
