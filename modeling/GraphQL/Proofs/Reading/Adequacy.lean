import GraphQL.Proofs.Reading.Progress
import GraphQL.Proofs.Reading.Stream

/-!
# The parser reads by the grammar

The parser does what the grammar says: it gives the trees that `Reads` gives, and otherwise it
reports the token that `Stops` stops at. Which of the two it is, the bounds on repetition and
recursion that the parser is handed are never reached, so no promise is ever broken.

Results:
1. `follows_repeatWhile`: a repetition follows the grammar if each round does.
2. `follows_ofGrammar`: a grammar is followed if the constructs that contain themselves are.
3. `follows_ofRule`: those are followed if the text is short enough.
4. `follows_run_from`, `follows_run`: the bounds of a whole parse are large enough for every text.
-/

namespace GraphQL

/-- What is reported for a fault at the token `t` when `limit` levels are allowed. -/
def Fault.Reported (limit : Nat) (t : SpannedToken) : Fault → ParseError → Prop
  | unexpected expected, e =>
    ∃ p : Position, p.offset = t.start ∧ e = .unexpectedToken p expected t.token.describe
  | tooDeep, e => ∃ p : Position, p.offset = t.start ∧ e = .nestingTooDeep p limit

/-- The error that reports a fault at the token. -/
def Fault.error (limit : Nat) (place : Position) (t : Token) : Fault → ParseError
  | unexpected expected => .unexpectedToken place expected t.describe
  | tooDeep => .nestingTooDeep place limit

/-- What the parser reports for a fault at the place `c` along the lexer `l`, where it knows the
lines up to there. -/
def Fault.ReportedAt (limit : Nat) (l : Lexer File) (c : Cursor) (fault : Fault)
    (e : ParseError) : Prop :=
  ∃ p, l.Resolves c.seen (l.nth c.index).start p ∧ e = fault.error limit p (l.nth c.index).token

theorem Fault.ReportedAt.reported {limit : Nat} {l : Lexer File} {c : Cursor} {fault : Fault}
    {e : ParseError} (h : fault.ReportedAt limit l c e)
    (inside : (l.nth c.index).start ≤ l.lines.size) :
    fault.Reported limit (l.nth c.index) e := by
  obtain ⟨p, resolved, rfl⟩ := h
  cases fault with
  | unexpected expected => exact ⟨p, resolved.offset_eq inside, rfl⟩
  | tooDeep => exact ⟨p, resolved.offset_eq inside, rfl⟩

namespace Parser

open Grammar (Room)

/-- The parser `p` along the lexer `l` does what the grammar says from `c` on. -/
def Follows (tape : Nat → PlacedToken) (limit : Nat) (l : Lexer File) (p : Parser (List Tree))
    (d : Nat) (g : Grammar) (c : Cursor) : Prop :=
  (∃ ts c', g.Reads tape limit d c ts c' ∧ p (.along l c d) = .ok ts (.along l c' d)) ∨
  (∃ fault c' e, g.Stops tape limit d c fault c' ∧ fault.ReportedAt limit l c' e ∧
    p (.along l c d) = .error (.rejected e) (.along l c' d))

section Follows

variable {tape : Nat → PlacedToken} {limit last : Nat} {l : Lexer File}
  (same : ∀ n, tape n = (l.nth n).placed l.lines.base)
  (fits : ∀ n, (l.nth n).stop ≤ l.lines.size)
  (heof : (tape last).token.kind = .eof)

include same heof in
/-- A repetition follows the grammar if each round does and takes a token. -/
theorem follows_repeatWhile {test : Lookahead} {g : Grammar} {d : Nat}
    {item : Parser (List Tree)} {ready : Cursor → Prop}
    (mono : ∀ c c' : Cursor, c.index ≤ c'.index → ready c → ready c')
    (hitem : ∀ c : Cursor, c.Ordered → c.index ≤ last → ready c →
      Follows tape limit l item d g c)
    (consumes : g.toEbnf.consumes = true) (steady : g.steady = true) (bound : Nat) {c : Cursor}
    (ordered : c.Ordered) (hc : c.index ≤ last) (hr : ready c) (enough : last < c.index + bound) :
    Follows tape limit l (repeatWhile test item bound) d (.many test g) c := by
  induction bound generalizing c with
  | zero => omega
  | succ bound ih =>
    have token (n : Nat) : (tape n).token = (l.nth n).token := by
      rw [same n]
      rfl
    have tested := ahead_along l d token ordered test
    have upto := Lookahead.upto_glance tape test c
    cases passed : test.passes tape c.index with
    | false =>
      refine .inl ⟨[], test.glance tape c, .ends passed, ?_⟩
      rw [repeatWhile, bind_ok tested, passed]
      rfl
    | true =>
      rcases hitem (test.glance tape c) (upto.ordered ordered) (by simpa using hc)
          (mono c _ upto.index hr) with ⟨ts, c', hg, first⟩ | ⟨fault, c', e, hg, reported, first⟩
      · -- the round has taken a token, so one round less is enough for what is left
        have forward : c.index < c'.index := by simpa using hg.index_lt consumes
        have steady' := hg.index_le heof steady (by simpa using hc)
        rcases ih (hg.upto.ordered (upto.ordered ordered)) steady'
            (mono c _ (Nat.le_of_lt forward) hr) (by omega) with
          ⟨us, c'', hm, others⟩ | ⟨fault, c'', e, hm, reported, others⟩
        · refine .inl ⟨ts ++ us, c'', .again passed hg hm, ?_⟩
          rw [repeatWhile, bind_ok tested, passed, if_pos rfl, bind_ok first, bind_ok others]
          rfl
        · refine .inr ⟨fault, c'', e, .again passed hg hm, reported, ?_⟩
          rw [repeatWhile, bind_ok tested, passed, if_pos rfl, bind_ok first]
          exact bind_error others
      · refine .inr ⟨fault, c', e, .item passed hg, reported, ?_⟩
        rw [repeatWhile, bind_ok tested, passed, if_pos rfl]
        exact bind_error first

include same fits heof in
/-- A grammar is followed if the constructs that contain themselves are. -/
theorem follows_ofGrammar {bound levels : Nat} {rule : Rule → Parser (List Tree)}
    (enough : last < bound)
    (hrule : ∀ (r : Rule) (d : Nat) (c : Cursor), c.Ordered → c.index ≤ last →
      last < c.index + levels → Follows tape limit l (rule r) d (.call r) c)
    {g : Grammar} {d : Nat} {c : Cursor} (steady : g.steady = true) (ordered : c.Ordered)
    (hc : c.index ≤ last) (room : Room last levels c g) :
    Follows tape limit l (ofGrammar limit bound rule g) d g c := by
  have token (n : Nat) : (tape n).token = (l.nth n).token := by
    rw [same n]
    rfl
  induction g generalizing d c with
  | done => exact .inl ⟨[], c, .done, rfl⟩
  | token t =>
    cases accepted : t.accepts (l.nth c.index).token with
    | true =>
      refine .inl ⟨[.token (tape c.index)], c.take, .token (by rw [token, accepted]), ?_⟩
      rw [ofGrammar, bind_ok (expect_accepts l d fits ordered accepted), same]
      rfl
    | false =>
      obtain ⟨p, ho, hp⟩ := expect_refuses l d fits ordered accepted
      refine .inr ⟨_, c.peek, _, .token (by rw [token, accepted]), ⟨p, ho, rfl⟩, ?_⟩
      rw [ofGrammar, token]
      exact bind_error hp
  | separator t =>
    cases accepted : t.accepts (l.nth c.index).token with
    | true =>
      refine .inl ⟨[], c.take, .separator (by rw [token, accepted]), ?_⟩
      rw [ofGrammar, bind_ok (expect_accepts l d fits ordered accepted)]
      rfl
    | false =>
      obtain ⟨p, ho, hp⟩ := expect_refuses l d fits ordered accepted
      refine .inr ⟨_, c.peek, _, .separator (by rw [token, accepted]), ⟨p, ho, rfl⟩, ?_⟩
      rw [ofGrammar, token]
      exact bind_error hp
  | fail expected =>
    obtain ⟨p, ho, hp⟩ := unexpected_along (α := List Tree) l d fits ordered fun _ => expected
    exact .inr ⟨_, c.peek, _, .fail, ⟨p, ho, rfl⟩, hp⟩
  | seq g h ihg ihh =>
    simp only [Grammar.steady, Bool.and_eq_true] at steady
    rcases ihg (d := d) steady.1 ordered hc room.first with
      ⟨ts, c', hg, first⟩ | ⟨fault, c', e, hg, reported, first⟩
    · -- `g` has taken a token, or there is one in front of every construct that `h` calls
      have roomh : Room last levels c' h := room.second hg.upto.index hg.index_lt
      rcases ihh steady.2 (hg.upto.ordered ordered) (hg.index_le heof steady.1 hc) roomh with
        ⟨us, c'', hh, second⟩ | ⟨fault, c'', e, hh, reported, second⟩
      · refine .inl ⟨ts ++ us, c'', hg.seq hh, ?_⟩
        rw [ofGrammar, bind_ok first, bind_ok second]
        rfl
      · refine .inr ⟨fault, c'', e, .second hg hh, reported, ?_⟩
        rw [ofGrammar, bind_ok first]
        exact bind_error second
    · refine .inr ⟨fault, c', e, .first hg, reported, ?_⟩
      rw [ofGrammar]
      exact bind_error first
  | choice test g h ihg ihh =>
    simp only [Grammar.steady, Bool.and_eq_true] at steady
    have tested := ahead_along l d token ordered test
    have upto := Lookahead.upto_glance tape test c
    have ordered' := upto.ordered ordered
    have hc' : (test.glance tape c).index ≤ last := by simpa using hc
    cases passed : test.passes tape c.index with
    | true =>
      have room' := room.branches.1.mono (Nat.le_refl last) upto.index
      rcases ihg (d := d) steady.1 ordered' hc' room' with
        ⟨ts, c', hg, branch⟩ | ⟨fault, c', e, hg, reported, branch⟩
      · refine .inl ⟨ts, c', .yes passed hg, ?_⟩
        rw [ofGrammar, bind_ok tested, passed, if_pos rfl, branch]
      · refine .inr ⟨fault, c', e, .yes passed hg, reported, ?_⟩
        rw [ofGrammar, bind_ok tested, passed, if_pos rfl, branch]
    | false =>
      have room' := room.branches.2.mono (Nat.le_refl last) upto.index
      rcases ihh (d := d) steady.2 ordered' hc' room' with
        ⟨ts, c', hh, branch⟩ | ⟨fault, c', e, hh, reported, branch⟩
      · refine .inl ⟨ts, c', .no passed hh, ?_⟩
        rw [ofGrammar, bind_ok tested, passed, if_neg Bool.noConfusion, branch]
      · refine .inr ⟨fault, c', e, .no passed hh, reported, ?_⟩
        rw [ofGrammar, bind_ok tested, passed, if_neg Bool.noConfusion, branch]
  | many test g ih =>
    simp only [Grammar.steady, Bool.and_eq_true] at steady
    have room' : Room last levels c g := room
    exact follows_repeatWhile same heof
      (fun _ _ hi (hr : Room last levels _ g) => hr.mono (Nat.le_refl last) hi)
      (fun c ordered hc room => ih steady.2 ordered hc room)
      steady.1 steady.2 bound ordered hc room' (by omega)
  | node k g ih =>
    rcases ih steady ordered hc room with ⟨ts, c', hg, body⟩ | ⟨fault, c', e, hg, reported, body⟩
    · refine .inl ⟨[.node k ts], c', hg.node, ?_⟩
      rw [ofGrammar, bind_ok body]
      rfl
    · refine .inr ⟨fault, c', e, hg.node, reported, ?_⟩
      rw [ofGrammar]
      exact bind_error body
  | nested g ih =>
    by_cases hd : d < limit
    · rcases ih (d := d + 1) steady ordered hc room with
        ⟨ts, c', hg, body⟩ | ⟨fault, c', e, hg, reported, body⟩
      · exact .inl ⟨ts, c', .nested hd hg, nested_ok hd body⟩
      · exact .inr ⟨fault, c', e, .nested hd hg, reported, nested_error hd body⟩
    · obtain ⟨p, ho, hp⟩ := nested_tooDeep l d fits ordered hd (ofGrammar limit bound rule g)
      exact .inr ⟨.tooDeep, c.peek, _, .tooDeep hd, ⟨p, ho, rfl⟩, hp⟩
  | call r =>
    -- no token stands in front of the construct, so there is room for one level less
    refine hrule r d c ordered hc ?_
    exact room.resolve_right fun h => Bool.noConfusion h.2

include same fits heof in
/-- The constructs that contain themselves are followed if the text is short enough. -/
theorem follows_ofRule {bound : Nat} (enough : last < bound) (levels : Nat) (r : Rule) (d : Nat)
    (c : Cursor) (ordered : c.Ordered) (hc : c.index ≤ last) (room : last < c.index + levels) :
    Follows tape limit l (ofRule limit bound levels r) d (.call r) c := by
  induction levels generalizing r d c with
  | zero => omega
  | succ levels ih =>
    have room' : Room last levels c (.ofRule r) := .inr ⟨by omega, Grammar.guarded_ofRule r⟩
    rcases follows_ofGrammar same fits heof enough (fun r d c ho hc hl => ih r d c ho hc hl)
        (Grammar.steady_ofRule r) ordered hc room' with
      ⟨ts, c', hg, body⟩ | ⟨fault, c', e, hg, reported, body⟩
    · exact .inl ⟨ts, c', hg.call, body⟩
    · exact .inr ⟨fault, c', e, hg.call, reported, body⟩

include same fits heof in
/-- A parse that starts anywhere at the first token follows the grammar. -/
theorem follows_run_from {size : Nat} (enough : last ≤ size) {g : Grammar}
    (steady : g.steady = true) (d seen : Nat) :
    Follows tape limit l (run limit size g) d g ⟨0, seen⟩ :=
  -- constructs inside one another take a token each, so `size` bounds how deep they are
  follows_ofGrammar same fits heof (Nat.lt_succ_of_le enough)
    (follows_ofRule same fits heof (Nat.lt_succ_of_le enough) (size + 1))
    steady (Nat.zero_le seen) (Nat.zero_le last) (.inl (by simp only; omega))

include same fits heof in
/-- A whole parse follows the grammar. -/
theorem follows_run {size : Nat} (enough : last ≤ size) {g : Grammar} (steady : g.steady = true) :
    Follows tape limit l (run limit size g) 0 g ⟨0, 0⟩ :=
  follows_run_from same fits heof enough steady 0 0

end Follows

end Parser

end GraphQL
