import GraphQL.Proofs.Reading.Stream

/-!
# The count of open levels

The parser counts the levels that are open. Whatever a part of it comes to, a result or an error, it
leaves as many levels open as it has found, and in between there are never more than the limit
allows.

Results:
1. `KeepsDepth.bind`, `KeepsDepth.nested`: steps one after another, and steps one level down.
2. `keepsDepth_ofGrammar`, `keepsDepth_ofRule`: every part of the parser leaves the count as it was.
3. `Visits.depth_le`: no state that the parser goes through has more levels open than allowed.
-/

namespace GraphQL

namespace Parser

variable {α β : Type}

/-- The state at the end, whether there is a result or an error. -/
def endState : EStateM.Result Halt ParserState α → ParserState
  | .ok _ s | .error _ s => s

/-- The parser ends with as many levels open as it has found. -/
def KeepsDepth (p : Parser α) : Prop := ∀ s, (endState (p s)).depth = s.depth

theorem KeepsDepth.depth_eq {p : Parser α} (hp : KeepsDepth p) {s s' : ParserState} {a : α}
    (h : p s = .ok a s') : s'.depth = s.depth := by
  have kept := hp s
  rwa [h] at kept

theorem KeepsDepth.depth_eq_of_error {p : Parser α} (hp : KeepsDepth p) {s s' : ParserState}
    {e : Halt} (h : p s = .error e s') : s'.depth = s.depth := by
  have kept := hp s
  rwa [h] at kept

/-! ## Steps that count nothing -/

theorem keepsDepth_pure (a : α) : KeepsDepth (pure a) := fun _ => rfl

theorem keepsDepth_throw (e : Halt) : KeepsDepth (throw e : Parser α) := fun _ => rfl

theorem keepsDepth_checked (r : Except Violation α) : KeepsDepth (checked r) := by
  cases r with
  | ok a => exact keepsDepth_pure a
  | error v => exact keepsDepth_throw (.broken v)

theorem KeepsDepth.bind {p : Parser α} {f : α → Parser β} (hp : KeepsDepth p)
    (hf : ∀ a, KeepsDepth (f a)) : KeepsDepth (p >>= f) := by
  intro s
  cases h : p s with
  | ok a s' =>
    rw [bind_ok h, hf a s']
    exact hp.depth_eq h
  | error e s' =>
    rw [bind_error h]
    exact hp.depth_eq_of_error h

theorem keepsDepth_peek (n : Nat) : KeepsDepth (peek n) := by
  intro s
  rw [peek, get_bind]
  cases s.stream.peekNth n <;> rfl

theorem keepsDepth_consume : KeepsDepth consume := fun _ => rfl

theorem keepsDepth_posAt (offset : Nat) : KeepsDepth (posAt offset) := fun s =>
  keepsDepth_checked (s.stream.lexer.lines.pos offset) s

theorem keepsDepth_positionAt (offset : Nat) : KeepsDepth (positionAt offset) :=
  (keepsDepth_posAt offset).bind fun p s =>
    keepsDepth_checked (s.stream.lexer.lines.position p) s

theorem keepsDepth_unexpected (expected : Token → String) :
    KeepsDepth (unexpected expected : Parser α) :=
  (keepsDepth_peek 0).bind fun t => (keepsDepth_positionAt t.start).bind fun _ =>
    keepsDepth_throw _

theorem keepsDepth_expect (t : Terminal) : KeepsDepth (expect t) := by
  refine (keepsDepth_peek 0).bind fun found => ?_
  split
  · exact keepsDepth_consume.bind fun x => (keepsDepth_posAt x.start).bind fun _ =>
      (keepsDepth_posAt x.stop).bind fun _ => keepsDepth_pure _
  · exact keepsDepth_unexpected t.expectation

theorem keepsDepth_ahead (test : Lookahead) : KeepsDepth (ahead test) := by
  cases test with
  | next t => exact (keepsDepth_peek 0).bind fun _ => keepsDepth_pure _
  | nextNot t => exact (keepsDepth_peek 0).bind fun _ => keepsDepth_pure _
  | nextTwo t u =>
    refine (keepsDepth_peek 0).bind fun found => ?_
    split
    · exact (keepsDepth_peek 1).bind fun _ => keepsDepth_pure _
    · exact keepsDepth_pure _

/-! ## One level down -/

/-- Entering opens one level if that is allowed, and is an error otherwise. -/
theorem enter_of_lt {limit : Nat} {s : ParserState} (room : s.depth < limit) :
    enter limit s = .ok () { s with depth := s.depth + 1 } := by
  rw [enter, get_bind, if_pos room]
  rfl

theorem enter_of_not_lt {limit : Nat} {s : ParserState} (full : ¬ s.depth < limit) :
    ∃ e s', enter limit s = .error e s' ∧ s'.depth = s.depth := by
  rw [enter, get_bind, if_neg full]
  cases h : peek 0 s with
  | error e s' => exact ⟨e, s', bind_error h, (keepsDepth_peek 0).depth_eq_of_error h⟩
  | ok t s' =>
    have looked := (keepsDepth_peek 0).depth_eq h
    rw [bind_ok h]
    cases h' : positionAt t.start s' with
    | error e s'' =>
      exact ⟨e, s'', bind_error h',
        ((keepsDepth_positionAt t.start).depth_eq_of_error h').trans looked⟩
    | ok p s'' =>
      exact ⟨_, s'', bind_ok h', ((keepsDepth_positionAt t.start).depth_eq h').trans looked⟩

theorem leave_of_succ {s : ParserState} {d : Nat} (h : s.depth = d + 1) :
    leave s = .ok () { s with depth := d } := by
  rw [leave, get_bind, h]
  rfl

/-- The level is left again, whether there is a result or an error. -/
theorem KeepsDepth.nested {p : Parser α} (hp : KeepsDepth p) (limit : Nat) :
    KeepsDepth (nested limit p) := by
  intro s
  by_cases room : s.depth < limit
  · rw [Parser.nested, bind_ok (enter_of_lt room)]
    cases h : p { s with depth := s.depth + 1 } with
    | ok a s' =>
      have inner : s'.depth = s.depth + 1 := hp.depth_eq h
      rw [bind_ok (tryCatch_ok h), bind_ok (leave_of_succ inner)]
      rfl
    | error e s' =>
      have inner : s'.depth = s.depth + 1 := hp.depth_eq_of_error h
      rw [bind_error ((tryCatch_error h).trans (bind_ok (leave_of_succ inner)))]
      rfl
  · obtain ⟨e, s', refused, depth⟩ := enter_of_not_lt room
    rw [Parser.nested, bind_error refused]
    exact depth

/-! ## Every part of the parser -/

variable {limit bound : Nat}

theorem KeepsDepth.repeatWhile {item : Parser (List Tree)} (hi : KeepsDepth item)
    (test : Lookahead) (bound : Nat) : KeepsDepth (repeatWhile test item bound) := by
  induction bound with
  | zero => exact keepsDepth_throw _
  | succ bound ih =>
    refine (keepsDepth_ahead test).bind fun passed => ?_
    split
    · exact hi.bind fun first => ih.bind fun others => keepsDepth_pure _
    · exact keepsDepth_pure _

theorem keepsDepth_ofGrammar {rule : Rule → Parser (List Tree)} (hr : ∀ r, KeepsDepth (rule r))
    (g : Grammar) : KeepsDepth (ofGrammar limit bound rule g) := by
  induction g with
  | done => exact keepsDepth_pure _
  | token t => exact (keepsDepth_expect t).bind fun _ => keepsDepth_pure _
  | separator t => exact (keepsDepth_expect t).bind fun _ => keepsDepth_pure _
  | fail expected => exact keepsDepth_unexpected _
  | seq g h ihg ihh => exact ihg.bind fun first => ihh.bind fun second => keepsDepth_pure _
  | choice test g h ihg ihh =>
    refine (keepsDepth_ahead test).bind fun passed => ?_
    split
    · exact ihg
    · exact ihh
  | many test g ih => exact ih.repeatWhile test bound
  | node k g ih => exact ih.bind fun _ => keepsDepth_pure _
  | nested g ih => exact ih.nested limit
  | call r => exact hr r

theorem keepsDepth_ofRule (levels : Nat) (r : Rule) :
    KeepsDepth (ofRule limit bound levels r) := by
  induction levels generalizing r with
  | zero => exact keepsDepth_throw _
  | succ levels ih => exact keepsDepth_ofGrammar ih (.ofRule r)

/-! ## Every state in between -/

/-- `Visits limit bound levels g s s'`: reading the grammar `g` from the state `s` goes through the
state `s'`, where constructs that contain themselves may be `levels` deep inside one another. From
any state the parser may go on to look at tokens and to take them; which of them it does look at and
take plays no part here. -/
inductive Visits (limit bound : Nat) : Nat → Grammar → ParserState → ParserState → Prop
  | start {levels : Nat} {g : Grammar} {s : ParserState} : Visits limit bound levels g s s
  | finish {levels : Nat} {g : Grammar} {s : ParserState} :
      Visits limit bound levels g s
        (endState (ofGrammar limit bound (ofRule limit bound levels) g s))
  | peek {levels n : Nat} {g : Grammar} {s s' : ParserState} :
      Visits limit bound levels g s s' → Visits limit bound levels g s (endState (peek n s'))
  | consume {levels : Nat} {g : Grammar} {s s' : ParserState} :
      Visits limit bound levels g s s' → Visits limit bound levels g s (endState (consume s'))
  | first {levels : Nat} {g h : Grammar} {s s' : ParserState} :
      Visits limit bound levels g s s' → Visits limit bound levels (.seq g h) s s'
  | second {levels : Nat} {g h : Grammar} {s s₁ s' : ParserState} {ts : List Tree} :
      ofGrammar limit bound (ofRule limit bound levels) g s = .ok ts s₁ →
      Visits limit bound levels h s₁ s' → Visits limit bound levels (.seq g h) s s'
  | yes {levels : Nat} {test : Lookahead} {g h : Grammar} {s s₁ s' : ParserState} :
      ahead test s = .ok true s₁ → Visits limit bound levels g s₁ s' →
      Visits limit bound levels (.choice test g h) s s'
  | no {levels : Nat} {test : Lookahead} {g h : Grammar} {s s₁ s' : ParserState} :
      ahead test s = .ok false s₁ → Visits limit bound levels h s₁ s' →
      Visits limit bound levels (.choice test g h) s s'
  | item {levels : Nat} {test : Lookahead} {g : Grammar} {s s₁ s' : ParserState} :
      ahead test s = .ok true s₁ → Visits limit bound levels g s₁ s' →
      Visits limit bound levels (.many test g) s s'
  | again {levels : Nat} {test : Lookahead} {g : Grammar} {s s₁ s₂ s' : ParserState}
      {ts : List Tree} :
      ahead test s = .ok true s₁ →
      ofGrammar limit bound (ofRule limit bound levels) g s₁ = .ok ts s₂ →
      Visits limit bound levels (.many test g) s₂ s' →
      Visits limit bound levels (.many test g) s s'
  | node {levels : Nat} {k : NodeKind} {g : Grammar} {s s' : ParserState} :
      Visits limit bound levels g s s' → Visits limit bound levels (.node k g) s s'
  | nested {levels : Nat} {g : Grammar} {s s₁ s' : ParserState} :
      enter limit s = .ok () s₁ → Visits limit bound levels g s₁ s' →
      Visits limit bound levels (.nested g) s s'
  | call {levels : Nat} {r : Rule} {s s' : ParserState} :
      Visits limit bound levels (.ofRule r) s s' → Visits limit bound (levels + 1) (.call r) s s'

/-- There are never more levels open than allowed. -/
theorem Visits.depth_le {levels : Nat} {g : Grammar} {s s' : ParserState}
    (h : Visits limit bound levels g s s') (allowed : s.depth ≤ limit) : s'.depth ≤ limit := by
  induction h with
  | start => exact allowed
  | finish =>
    rw [keepsDepth_ofGrammar (keepsDepth_ofRule _)]
    exact allowed
  | peek _ ih =>
    rw [keepsDepth_peek]
    exact ih allowed
  | consume _ ih =>
    rw [keepsDepth_consume]
    exact ih allowed
  | first _ ih => exact ih allowed
  | second read _ ih =>
    exact ih ((keepsDepth_ofGrammar (keepsDepth_ofRule _) _).depth_eq read ▸ allowed)
  | yes tested _ ih => exact ih ((keepsDepth_ahead _).depth_eq tested ▸ allowed)
  | no tested _ ih => exact ih ((keepsDepth_ahead _).depth_eq tested ▸ allowed)
  | item tested _ ih => exact ih ((keepsDepth_ahead _).depth_eq tested ▸ allowed)
  | again tested read _ ih =>
    refine ih ?_
    rw [(keepsDepth_ofGrammar (keepsDepth_ofRule _) _).depth_eq read,
      (keepsDepth_ahead _).depth_eq tested]
    exact allowed
  | node _ ih => exact ih allowed
  | @nested levels g s s₁ s' entered _ ih =>
    refine ih ?_
    by_cases room : s.depth < limit
    · obtain ⟨⟩ := (enter_of_lt room).symm.trans entered
      exact room
    · obtain ⟨e, s₂, refused, -⟩ := enter_of_not_lt room
      cases refused.symm.trans entered
  | call _ ih => exact ih allowed

end Parser

end GraphQL
