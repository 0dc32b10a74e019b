import GraphQL.Parser
import GraphQL.Proofs.Lexing.Placement
import GraphQL.Proofs.Reading.Relation

/-!
# The parser at a place

A token stream that has been made from a lexer is given by a place: the tokens that have been looked
at but not taken are held back, and the lexer has read as far as has been looked. This module says
what each of the basic steps of the parser does at a place.

Results:
1. `consume_along`, `peekNth_along`: a stream at a place takes the next token, or looks at it.
2. `expect_accepts`, `expect_refuses`, `unexpected_along`, `ahead_along`: the steps of the parser.
3. `nested_tooDeep`, `nested_ok`, `nested_error`: a level is entered and left again.
-/

namespace GraphQL

namespace TokenStream

variable {σ : Type} [LineSink σ]

/-- The stream along the lexer `l` at the place `c`. -/
def along (l : Lexer σ) (c : Cursor) : TokenStream σ :=
  { lexer := l.after c.seen, buffer := (List.range' c.index (c.seen - c.index)).map l.nth }

variable (l : Lexer σ) {c : Cursor}

theorem consume_along (ordered : c.Ordered) :
    (along l c).consume = (l.nth c.index, along l c.take) := by
  rcases Nat.eq_or_lt_of_le ordered with h | h
  · simp [consume, along, Cursor.take, h, Lexer.after_succ, Lexer.nth]
  · obtain ⟨k, hk⟩ : ∃ k, c.seen - c.index = k + 1 := ⟨c.seen - c.index - 1, by omega⟩
    have seen : max c.seen (c.index + 1) = c.seen := by omega
    have held : c.seen - (c.index + 1) = k := by omega
    simp [consume, along, Cursor.take, hk, seen, held, List.range'_succ]

theorem pull_along (ordered : c.Ordered) :
    (along l c).pull = along l { c with seen := c.seen + 1 } := by
  have held : c.seen + 1 - c.index = (c.seen - c.index) + 1 := Nat.succ_sub ordered
  have last : c.index + (c.seen - c.index) = c.seen := Nat.add_sub_cancel' ordered
  simp [pull, along, held, List.range'_1_concat, last, Lexer.after_succ, Lexer.nth]

theorem repeat_pull_along (ordered : c.Ordered) (k : Nat) :
    Nat.repeat pull k (along l c) = along l { c with seen := c.seen + k } := by
  induction k with
  | zero => rfl
  | succ k ih =>
    have ordered' : Cursor.Ordered { c with seen := c.seen + k } :=
      Nat.le_trans ordered (Nat.le_add_right c.seen k)
    rw [Nat.repeat, ih, pull_along l ordered']
    rfl

theorem peekNth_along (ordered : c.Ordered) {n : Nat} (h : n < capacity) :
    (along l c).peekNth n =
      .ok (l.nth (c.index + n), along l { c with seen := max c.seen (c.index + n + 1) }) := by
  have filled : (along l c).fill (n + 1) =
      along l { c with seen := max c.seen (c.index + n + 1) } := by
    have ordered' : c.index ≤ c.seen := ordered
    have held : (along l c).buffer.length = c.seen - c.index := by simp [along]
    have seen : c.seen + (n + 1 - (c.seen - c.index)) = max c.seen (c.index + n + 1) := by omega
    rw [fill, held, repeat_pull_along l ordered, seen]
  have get (s : TokenStream σ) (hn : n < s.buffer.length)
      (hs : s = along l { c with seen := max c.seen (c.index + n + 1) }) :
      s.buffer.get ⟨n, hn⟩ = l.nth (c.index + n) := by
    subst hs
    simp [along]
  rw [peekNth, if_pos h]
  exact congrArg Except.ok (Prod.ext (get _ _ filled) filled)

end TokenStream

/-- The position of the offset is `p` by the lines that are known after `n` tokens. -/
def Lexer.Resolves (l : Lexer File) (n offset : Nat) (p : Position) : Prop :=
  (l.after n).lines.position ⟨l.lines.base + offset⟩ = .ok p

theorem Lexer.Resolves.offset_eq {l : Lexer File} {n offset : Nat} {p : Position}
    (h : l.Resolves n offset p) (inside : offset ≤ l.lines.size) : p.offset = offset := by
  obtain ⟨q, hq, offset⟩ := File.position_of_sameRange (l.sameRange_after n) inside
  obtain rfl : p = q := Except.ok.inj (h.symm.trans hq)
  exact offset

namespace ParserState

/-- The parser along the lexer `l` at the place `c` with `d` levels open. -/
def along (l : Lexer File) (c : Cursor) (d : Nat) : ParserState :=
  { stream := .along l c, depth := d }

end ParserState

namespace Parser

variable {α β : Type}

/-! ## Sequences of steps -/

theorem bind_ok {p : Parser α} {f : α → Parser β} {s s' : ParserState} {a : α}
    (h : p s = .ok a s') : (p >>= f) s = f a s' := by
  simp only [bind, EStateM.bind, h]

theorem bind_error {p : Parser α} {f : α → Parser β} {s s' : ParserState} {e : Halt}
    (h : p s = .error e s') : (p >>= f) s = .error e s' := by
  simp only [bind, EStateM.bind, h]

theorem pure_apply (a : α) (s : ParserState) : (pure a : Parser α) s = .ok a s := rfl

theorem get_bind (f : ParserState → Parser α) (s : ParserState) : (get >>= f) s = f s s := rfl

theorem tryCatch_ok {p : Parser α} {handle : Halt → Parser α} {s s' : ParserState} {a : α}
    (h : p s = .ok a s') : tryCatch p handle s = .ok a s' := by
  change EStateM.tryCatch p handle s = _
  unfold EStateM.tryCatch
  rw [h]

theorem tryCatch_error {p : Parser α} {handle : Halt → Parser α} {s s' : ParserState} {e : Halt}
    (h : p s = .error e s') : tryCatch p handle s = handle e s' := by
  change EStateM.tryCatch p handle s = _
  unfold EStateM.tryCatch
  rw [h]
  rfl

/-! ## Looking and taking -/

section Steps

variable (l : Lexer File) {c : Cursor} (d : Nat)

theorem peek_along (ordered : c.Ordered) {n : Nat} (h : n < TokenStream.capacity) :
    peek n (.along l c d) =
      .ok (l.nth (c.index + n)) (.along l { c with seen := max c.seen (c.index + n + 1) } d) := by
  rw [peek, get_bind]
  change (checked ((TokenStream.along l c).peekNth n) >>= _) _ = _
  rw [TokenStream.peekNth_along l ordered h]
  rfl

theorem peek_zero_along (ordered : c.Ordered) :
    peek 0 (.along l c d) = .ok (l.nth c.index) (.along l c.peek d) :=
  peek_along l d ordered (by decide)

theorem consume_along (ordered : c.Ordered) :
    consume (.along l c d) = .ok (l.nth c.index) (.along l c.take d) := by
  have hs : (ParserState.along l c d).stream.consume = _ := TokenStream.consume_along l ordered
  rw [consume, get_bind, hs]
  rfl

theorem take_peek (c : Cursor) : c.peek.take = c.take := by
  simp only [Cursor.peek, Cursor.take, Cursor.mk.injEq, true_and]
  omega

/-- What a test says at a place, and how far it looks. -/
theorem ahead_along {tape : Nat → PlacedToken} (same : ∀ n, (tape n).token = (l.nth n).token)
    (ordered : c.Ordered) (test : Lookahead) :
    ahead test (.along l c d) =
      .ok (test.passes tape c.index) (.along l (test.glance tape c) d) := by
  cases test with
  | next t =>
    rw [ahead, bind_ok (peek_zero_along l d ordered), pure_apply]
    simp [Lookahead.passes, Lookahead.glance, same]
  | nextNot t =>
    rw [ahead, bind_ok (peek_zero_along l d ordered), pure_apply]
    simp [Lookahead.passes, Lookahead.glance, same]
  | nextTwo t u =>
    rw [ahead, bind_ok (peek_zero_along l d ordered)]
    by_cases h : t.accepts (l.nth c.index).token = true
    · have seen : max (max c.seen (c.index + 1)) (c.index + 1 + 1) = max c.seen (c.index + 2) := by
        omega
      rw [if_pos h, bind_ok (peek_along l d (c.upto_peek.ordered ordered) (n := 1) (by decide)),
        pure_apply]
      simp [Lookahead.passes, Lookahead.glance, same, h, Cursor.peek, seen]
    · rw [if_neg h, pure_apply]
      simp [Lookahead.passes, Lookahead.glance, same, h]

/-! ## Positions -/

theorem posAt_along {offset : Nat} (inside : offset ≤ l.lines.size) :
    posAt offset (.along l c d) = .ok ⟨l.lines.base + offset⟩ (.along l c d) := by
  have hp : (ParserState.along l c d).stream.lexer.lines.pos offset = _ :=
    File.pos_of_sameRange (l.sameRange_after c.seen) inside
  rw [posAt, get_bind, hp]
  rfl

theorem positionAt_along {offset : Nat} (inside : offset ≤ l.lines.size) :
    ∃ p, positionAt offset (.along l c d) = .ok p (.along l c d) ∧ l.Resolves c.seen offset p := by
  obtain ⟨p, hp, -⟩ := File.position_of_sameRange (l.sameRange_after c.seen) inside
  refine ⟨p, ?_, hp⟩
  have hs : (ParserState.along l c d).stream.lexer.lines.position _ = .ok p := hp
  rw [positionAt, bind_ok (posAt_along l d inside), get_bind, hs]
  rfl

variable (fits : ∀ n, (l.nth n).stop ≤ l.lines.size)
include fits

/-- A token that is as required is taken. -/
theorem expect_accepts (ordered : c.Ordered) {t : Terminal}
    (accepted : t.accepts (l.nth c.index).token = true) :
    expect t (.along l c d) = .ok ((l.nth c.index).placed l.lines.base) (.along l c.take d) := by
  have stop := fits c.index
  have start := Nat.le_trans (l.start_le_stop_nth c.index) stop
  have taken : consume (.along l c.peek d) = .ok (l.nth c.index) (.along l c.take d) := by
    rw [consume_along l d (c.upto_peek.ordered ordered), take_peek]
    rfl
  rw [expect, bind_ok (peek_zero_along l d ordered), if_pos accepted, bind_ok taken,
    bind_ok (posAt_along l d start), bind_ok (posAt_along l d stop), pure_apply]
  rfl

/-- Where the parser stops, it has looked at the next token and says what it is and where. -/
theorem unexpected_along (ordered : c.Ordered) (expected : Token → String) :
    ∃ p : Position, l.Resolves c.peek.seen (l.nth c.index).start p ∧
      unexpected (α := α) expected (.along l c d) =
        .error
          (.rejected (.unexpectedToken p (expected (l.nth c.index).token)
            (l.nth c.index).token.describe))
          (.along l c.peek d) := by
  have start := Nat.le_trans (l.start_le_stop_nth c.index) (fits c.index)
  obtain ⟨p, hp, ho⟩ := positionAt_along l (c := c.peek) d start
  refine ⟨p, ho, ?_⟩
  rw [unexpected, bind_ok (peek_zero_along l d ordered)]
  exact bind_ok hp

/-- A token that is not as required stops the parser. -/
theorem expect_refuses (ordered : c.Ordered) {t : Terminal}
    (refused : t.accepts (l.nth c.index).token = false) :
    ∃ p : Position, l.Resolves c.peek.seen (l.nth c.index).start p ∧
      expect t (.along l c d) =
        .error
          (.rejected (.unexpectedToken p (t.expectation (l.nth c.index).token)
            (l.nth c.index).token.describe))
          (.along l c.peek d) := by
  obtain ⟨p, ho, hp⟩ := unexpected_along (α := PlacedToken) l d fits
    (c.upto_peek.ordered ordered) t.expectation
  have again : c.peek.peek = c.peek := by
    simp only [Cursor.peek, Cursor.mk.injEq, true_and]
    omega
  rw [again] at hp ho
  refine ⟨p, ho, ?_⟩
  have other : ¬ t.accepts (l.nth c.index).token = true := by simp [refused]
  rw [expect, bind_ok (peek_zero_along l d ordered), if_neg other]
  exact hp

/-! ## Levels -/

/-- A construct nested too deeply is reported at its first token. -/
theorem nested_tooDeep (ordered : c.Ordered) {limit : Nat} (deep : ¬ d < limit) (p : Parser α) :
    ∃ place : Position, l.Resolves c.peek.seen (l.nth c.index).start place ∧
      nested limit p (.along l c d) =
        .error (.rejected (.nestingTooDeep place limit)) (.along l c.peek d) := by
  have start := Nat.le_trans (l.start_le_stop_nth c.index) (fits c.index)
  obtain ⟨place, hp, ho⟩ := positionAt_along l (c := c.peek) d start
  refine ⟨place, ho, ?_⟩
  rw [nested]
  refine bind_error ?_
  rw [enter, get_bind, if_neg (show ¬ (ParserState.along l c d).depth < limit from deep),
    bind_ok (peek_zero_along l d ordered)]
  exact bind_ok hp

end Steps

section Levels

variable {l : Lexer File} {c c' : Cursor} {d limit : Nat} {p : Parser α}

theorem enter_along (room : d < limit) :
    enter limit (.along l c d) = .ok () (.along l c (d + 1)) := by
  rw [enter, get_bind, if_pos (show (ParserState.along l c d).depth < limit from room)]
  rfl

theorem leave_along : leave (.along l c (d + 1)) = .ok () (.along l c d) := rfl

theorem nested_ok (room : d < limit) {a : α}
    (h : p (.along l c (d + 1)) = .ok a (.along l c' (d + 1))) :
    nested limit p (.along l c d) = .ok a (.along l c' d) := by
  rw [nested, bind_ok (enter_along room)]
  rw [bind_ok (tryCatch_ok h), bind_ok leave_along]
  rfl

theorem nested_error (room : d < limit) {e : Halt}
    (h : p (.along l c (d + 1)) = .error e (.along l c' (d + 1))) :
    nested limit p (.along l c d) = .error e (.along l c' d) := by
  rw [nested, bind_ok (enter_along room)]
  refine bind_error ?_
  rw [tryCatch_error h]
  exact bind_ok leave_along

end Levels

end Parser

end GraphQL
