import GraphQL.Proofs.Reading.Progress
import GraphQL.Proofs.Reading.Requests

/-!
# Requests that are in order

Every request has a range of arguments that it is meant for. Along a lexer whose tokens all lie
inside its file the parser keeps to these ranges, whatever the text and however the parse ends: this
takes no bound on the length of the text, and no grammar is run to its end for it.

Results:
1. `Safe.bind_ok`, `Safe.bind`: steps one after another.
2. `safe_expect`, `Safe.nested`, `Safe.repeatWhile`: the parts of the parser.
3. `safe_ofGrammar`, `safe_ofRule`: every request of a parse is in order.
-/

namespace GraphQL

namespace Parser

/-- The request is made at a place along the lexer `l`, and in a way that it is meant for, where
`limit` levels are allowed. -/
def Step.InOrder (l : Lexer File) (limit : Nat) (x : Step) : Prop :=
  ∃ c d, x.state = .along l c d ∧ c.Ordered ∧
    match x.request with
    | .token .consume => (l.nth c.index).token.kind ≠ .eof
    | .token (.peek n) => n < TokenStream.capacity
    | .place offset => offset ≤ l.lines.size
    | .resolve p => ∃ offset, offset ≤ l.lines.size ∧ p = ⟨l.lines.base + offset⟩
    | .enter => d < limit
    | .leave => 0 < d

namespace Recorded

variable {α β : Type} {l : Lexer File} {limit d : Nat} {s s' : ParserState}

/-- From the state `s` on the parser makes requests that are in order only, and it ends at a place
along the lexer with `d` levels open. -/
def Safe (l : Lexer File) (limit d : Nat) (p : Recorded α) (s : ParserState) : Prop :=
  (∀ x ∈ p.steps s, x.InOrder l limit) ∧
    ∃ c, c.Ordered ∧ endState (p.parser s) = .along l c d

theorem safe_pure {c : Cursor} (ordered : c.Ordered) (a : α) :
    Safe l limit d (pure a) (.along l c d) := ⟨nofun, c, ordered, rfl⟩

theorem safe_throw {c : Cursor} (ordered : c.Ordered) (e : Halt) :
    Safe l limit d (throw e : Recorded α) (.along l c d) := ⟨nofun, c, ordered, rfl⟩

/-- One step whose result is known, and what comes behind it. -/
theorem Safe.bind_ok {p : Recorded α} {f : α → Recorded β} {a : α}
    (first : ∀ x ∈ p.steps s, x.InOrder l limit) (h : p.parser s = .ok a s')
    (hf : Safe l limit d (f a) s') : Safe l limit d (p >>= f) s := by
  obtain ⟨others, c, ordered, last⟩ := hf
  refine ⟨?_, c, ordered, ?_⟩
  · rw [steps_bind_ok h]
    exact List.forall_mem_append.mpr ⟨first, others⟩
  · rw [parser_bind, Parser.bind_ok h, last]

/-- A step that ends in an error, behind which nothing comes. -/
theorem Safe.bind_error {p : Recorded α} {f : α → Recorded β} {e : Halt}
    (hp : Safe l limit d p s) (h : p.parser s = .error e s') : Safe l limit d (p >>= f) s := by
  obtain ⟨first, c, ordered, last⟩ := hp
  refine ⟨?_, c, ordered, ?_⟩
  · rw [steps_bind_error h]
    exact first
  · rw [parser_bind, Parser.bind_error h, ← last, h]
    rfl

/-- One step and another one. -/
theorem Safe.bind {p : Recorded α} {f : α → Recorded β} (hp : Safe l limit d p s)
    (hf : ∀ a c, c.Ordered → Safe l limit d (f a) (.along l c d)) :
    Safe l limit d (p >>= f) s := by
  cases h : p.parser s with
  | ok a s' =>
    obtain ⟨first, c, ordered, last⟩ := hp
    obtain rfl : s' = .along l c d := by rwa [h] at last
    exact .bind_ok first h (hf a c ordered)
  | error e s' => exact hp.bind_error h

/-- A step that ends in an error, which is then handled. -/
theorem Safe.tryCatch_error {p : Recorded α} {handle : Halt → Recorded α} {e : Halt}
    (first : ∀ x ∈ p.steps s, x.InOrder l limit) (h : p.parser s = .error e s')
    (hh : Safe l limit d (handle e) s') : Safe l limit d (tryCatch p handle) s := by
  obtain ⟨others, c, ordered, last⟩ := hh
  refine ⟨?_, c, ordered, ?_⟩
  · rw [steps_tryCatch_error h]
    exact List.forall_mem_append.mpr ⟨first, others⟩
  · rw [← last]
    exact congrArg endState (Parser.tryCatch_error h)

/-! ## Looking, taking and positions -/

section Steps

variable {c : Cursor} (ordered : c.Ordered)
include ordered

theorem inOrder_peek {n : Nat} (h : n < TokenStream.capacity) :
    ∀ x ∈ (peek n).steps (.along l c d), x.InOrder l limit :=
  List.forall_mem_singleton.mpr ⟨c, d, rfl, ordered, h⟩

/-- The parser looks at the next token and goes on with it. -/
theorem Safe.peek_bind {f : SpannedToken → Recorded α}
    (hf : Safe l limit d (f (l.nth c.index)) (.along l c.peek d)) :
    Safe l limit d (peek 0 >>= f) (.along l c d) :=
  .bind_ok (inOrder_peek ordered (by decide)) (peek_zero_along l d ordered) hf

theorem Safe.posAt_bind {f : Pos → Recorded α} {offset : Nat} (inside : offset ≤ l.lines.size)
    (hf : Safe l limit d (f ⟨l.lines.base + offset⟩) (.along l c d)) :
    Safe l limit d (posAt offset >>= f) (.along l c d) :=
  .bind_ok (List.forall_mem_singleton.mpr ⟨c, d, rfl, ordered, inside⟩)
    (posAt_along l d inside) hf

theorem safe_positionAt {offset : Nat} (inside : offset ≤ l.lines.size) :
    Safe l limit d (positionAt offset) (.along l c d) :=
  .posAt_bind ordered inside
    ⟨List.forall_mem_singleton.mpr ⟨c, d, rfl, ordered, offset, inside, rfl⟩, c, ordered,
      endState_checked _ _⟩

theorem safe_ahead (test : Lookahead) : Safe l limit d (ahead test) (.along l c d) := by
  have looked := c.upto_peek.ordered ordered
  cases test with
  | next t => exact .peek_bind ordered (safe_pure looked _)
  | nextNot t => exact .peek_bind ordered (safe_pure looked _)
  | nextTwo t u =>
    refine .peek_bind ordered ?_
    split
    · have second : Cursor.Ordered { c.peek with seen := max c.peek.seen (c.index + 1 + 1) } :=
        Nat.le_trans looked (Nat.le_max_left _ _)
      exact .bind_ok (inOrder_peek looked (by decide)) (peek_along l d looked (by decide))
        (safe_pure second _)
    · exact safe_pure looked _

variable (fits : ∀ n, (l.nth n).stop ≤ l.lines.size)
include fits

theorem safe_unexpected (expected : Token → String) :
    Safe l limit d (unexpected expected : Recorded α) (.along l c d) := by
  have start := Nat.le_trans (l.start_le_stop_nth c.index) (fits c.index)
  refine .peek_bind ordered ((safe_positionAt (c.upto_peek.ordered ordered) start).bind ?_)
  exact fun _ _ looked => safe_throw looked _

/-- A token is taken only if it is as required, so not at the end of the text. -/
theorem safe_expect {t : Terminal} (ht : t ≠ .kind .eof) :
    Safe l limit d (expect t) (.along l c d) := by
  have stop := fits c.index
  have start := Nat.le_trans (l.start_le_stop_nth c.index) stop
  have looked := c.upto_peek.ordered ordered
  refine .peek_bind ordered ?_
  split
  · next accepted =>
    have taken := c.peek.upto_take.ordered looked
    have notEnd : (l.nth c.index).token.kind ≠ .eof :=
      Terminal.kind_ne_of_accepts (by decide) ht accepted
    refine .bind_ok (List.forall_mem_singleton.mpr ⟨c.peek, d, rfl, looked, notEnd⟩)
      (consume_along l d looked) ?_
    exact .posAt_bind taken start (.posAt_bind taken stop (safe_pure taken _))
  · exact safe_unexpected looked fits t.expectation

theorem safe_enter_of_not_lt (deep : ¬ d < limit) :
    Safe l limit d (enter limit) (.along l c d) := by
  have start := Nat.le_trans (l.start_le_stop_nth c.index) (fits c.index)
  refine .bind_ok nofun (rfl : depth.parser (.along l c d) = .ok d (.along l c d)) ?_
  rw [if_neg (show ¬ (ParserState.along l c d).depth < limit from deep)]
  exact .peek_bind ordered ((safe_positionAt (c.upto_peek.ordered ordered) start).bind
    fun _ _ looked => safe_throw looked _)

end Steps

/-! ## Levels -/

section Levels

variable {c : Cursor} (ordered : c.Ordered)
include ordered

/-- One level down. -/
theorem Safe.enter_bind (room : d < limit) {e : Nat} {f : Unit → Recorded α}
    (hf : Safe l limit e (f ()) (.along l c (d + 1))) :
    Safe l limit e (enter limit >>= f) (.along l c d) := by
  have entered : (enter limit).parser (.along l c d) = .ok () (.along l c (d + 1)) := by
    rw [parser_enter, enter_along room]
  refine .bind_ok ?_ entered hf
  have here : (ParserState.along l c d).depth < limit := room
  rw [enter, steps_bind_ok (rfl : depth.parser (.along l c d) = .ok d (.along l c d)), if_pos here]
  exact List.forall_mem_singleton.mpr ⟨c, d, rfl, ordered, room⟩

/-- A level is left again. -/
theorem Safe.leave_bind {f : Unit → Recorded α} (hf : Safe l limit d (f ()) (.along l c d)) :
    Safe l limit d (leave >>= f) (.along l c (d + 1)) :=
  .bind_ok (List.forall_mem_singleton.mpr ⟨c, d + 1, rfl, ordered, Nat.succ_pos d⟩) leave_along hf

/-- Whatever happens one level down, the level is left once. -/
theorem Safe.nested {p : Recorded α} (fits : ∀ n, (l.nth n).stop ≤ l.lines.size)
    (hp : Safe l limit (d + 1) p (.along l c (d + 1))) :
    Safe l limit d (nested limit p) (.along l c d) := by
  by_cases room : d < limit
  · refine .enter_bind ordered room ?_
    obtain ⟨inside, c', ordered', last⟩ := hp
    cases h : p.parser (.along l c (d + 1)) with
    | ok a s' =>
      obtain rfl : s' = .along l c' (d + 1) := by rwa [h] at last
      refine .bind_ok ?_ (tryCatch_ok h) (.leave_bind ordered' (safe_pure ordered' a))
      rw [steps_tryCatch_ok h]
      exact inside
    | error e s' =>
      obtain rfl : s' = .along l c' (d + 1) := by rwa [h] at last
      refine Safe.bind_error ?_ ((Parser.tryCatch_error h).trans (Parser.bind_ok leave_along))
      exact .tryCatch_error inside h (.leave_bind ordered' (safe_throw ordered' e))
  · obtain ⟨e, s', refused, -⟩ := enter_of_not_lt (s := .along l c d) room
    rw [← parser_enter] at refused
    exact (safe_enter_of_not_lt ordered fits room).bind_error refused

end Levels

/-! ## Every part of the parser -/

section Grammar

variable (fits : ∀ n, (l.nth n).stop ≤ l.lines.size) {bound : Nat}

theorem Safe.repeatWhile {item : Recorded (List Tree)} {d : Nat}
    (hi : ∀ c : Cursor, c.Ordered → Safe l limit d item (.along l c d)) (test : Lookahead)
    (bound : Nat) {c : Cursor} (ordered : c.Ordered) :
    Safe l limit d (repeatWhile test item bound) (.along l c d) := by
  induction bound generalizing c with
  | zero => exact safe_throw ordered _
  | succ bound ih =>
    refine (safe_ahead ordered test).bind fun passed c₁ ho₁ => ?_
    split
    · exact (hi c₁ ho₁).bind fun first c₂ ho₂ => (ih ho₂).bind fun others c₃ ho₃ =>
        safe_pure ho₃ _
    · exact safe_pure ho₁ _

include fits

/-- A grammar that does not ask for the end of the text is read by requests that are in order. -/
theorem safe_ofGrammar {rule : Rule → Recorded (List Tree)}
    (hrule : ∀ (r : Rule) (d : Nat) (c : Cursor), c.Ordered →
      Safe l limit d (rule r) (.along l c d))
    {g : Grammar} (steady : g.steady = true) {d : Nat} {c : Cursor} (ordered : c.Ordered) :
    Safe l limit d (ofGrammar limit bound rule g) (.along l c d) := by
  induction g generalizing d c with
  | done => exact safe_pure ordered _
  | token t =>
    exact (safe_expect ordered fits (of_decide_eq_true steady)).bind fun _ _ ho => safe_pure ho _
  | separator t =>
    exact (safe_expect ordered fits (of_decide_eq_true steady)).bind fun _ _ ho => safe_pure ho _
  | fail expected => exact safe_unexpected ordered fits _
  | seq g h ihg ihh =>
    simp only [Grammar.steady, Bool.and_eq_true] at steady
    exact (ihg steady.1 ordered).bind fun _ _ ho => (ihh steady.2 ho).bind fun _ _ ho =>
      safe_pure ho _
  | choice test g h ihg ihh =>
    simp only [Grammar.steady, Bool.and_eq_true] at steady
    refine (safe_ahead ordered test).bind fun passed c ho => ?_
    split
    · exact ihg steady.1 ho
    · exact ihh steady.2 ho
  | many test g ih =>
    simp only [Grammar.steady, Bool.and_eq_true] at steady
    exact .repeatWhile (fun c ho => ih steady.2 ho) test bound ordered
  | node k g ih => exact (ih steady ordered).bind fun _ _ ho => safe_pure ho _
  | nested g ih => exact .nested ordered fits (ih steady ordered)
  | call r => exact hrule r d c ordered

theorem safe_ofRule (levels : Nat) (r : Rule) (d : Nat) (c : Cursor) (ordered : c.Ordered) :
    Safe l limit d (ofRule limit bound levels r) (.along l c d) := by
  induction levels generalizing r d c with
  | zero => exact safe_throw ordered _
  | succ levels ih => exact safe_ofGrammar fits ih (Grammar.steady_ofRule r) ordered

/-- Every request of a whole parse is in order. -/
theorem safe_run {g : Grammar} (steady : g.steady = true) (size : Nat) :
    Safe l limit 0 (run limit size g) (.along l ⟨0, 0⟩ 0) :=
  safe_ofGrammar fits (safe_ofRule fits (size + 1)) steady (Nat.le_refl 0)

end Grammar

end Recorded

end Parser

end GraphQL
