import GraphQL.Proofs.Reading.Calls
import GraphQL.Proofs.Reading.Depth

/-!
# What the parser asks for

The parser once more, with a record of what it asks of its token stream, of its file and of its
count of levels, and of the state in which it asks. The record is complete: each request is made in
the state that the one before it has left behind, and the last one leaves the state in which the
parser ends.

Results:
1. `parser_ofGrammar`, `parser_ofRule`: what is recorded is the parser itself.
2. `complete_ofGrammar`, `complete_ofRule`: the record accounts for every change of the state.
3. `records_run`: both hold of a whole parse.
-/

namespace GraphQL

namespace Parser

/-- Something that the parser asks for. -/
inductive Request where
  /-- A token, to be taken or looked at. -/
  | token (q : TokenStream.Call)
  /-- The position of an offset. -/
  | place (offset : Nat)
  /-- The line and column of a position. -/
  | resolve (p : Pos)
  /-- To count one level more. -/
  | enter
  /-- To count one level less. -/
  | leave
  deriving DecidableEq, Repr

/-- What a request does to the state. -/
def Request.after (s : ParserState) : Request → ParserState
  | token q => { s with stream := (s.stream.call q).2 }
  | place _ | resolve _ => s
  | enter => { s with depth := s.depth + 1 }
  | leave => { s with depth := s.depth - 1 }

/-- A request and the state in which it is made. -/
structure Step where
  state : ParserState
  request : Request

/-- A parser and a record of the requests that it makes from a state on. -/
structure Recorded (α : Type) where
  parser : Parser α
  steps : ParserState → List Step

namespace Recorded

variable {α β : Type}

instance : Monad Recorded where
  pure a := { parser := pure a, steps := fun _ => [] }
  bind p f :=
    { parser := p.parser >>= fun a => (f a).parser
      steps := fun s => p.steps s ++ match p.parser s with
        | .ok a s' => (f a).steps s'
        | .error _ _ => [] }

instance : MonadExceptOf Halt Recorded where
  throw e := { parser := throw e, steps := fun _ => [] }
  tryCatch p handle :=
    { parser := tryCatch p.parser fun e => (handle e).parser
      steps := fun s => p.steps s ++ match p.parser s with
        | .ok _ _ => []
        | .error e s' => (handle e).steps s' }

/-- A parser that makes one request. -/
def ask (r : Request) (p : Parser α) : Recorded α := { parser := p, steps := fun s => [⟨s, r⟩] }

/-! ## The parser with its record

Each step reads as in the parser. -/

/-- The count of levels. -/
def depth : Recorded Nat := { parser := do return (← get).depth, steps := fun _ => [] }

def peek (n : Nat) : Recorded SpannedToken := ask (.token (.peek n)) (Parser.peek n)

def consume : Recorded SpannedToken := ask (.token .consume) Parser.consume

def posAt (offset : Nat) : Recorded Pos := ask (.place offset) (Parser.posAt offset)

def positionAt (offset : Nat) : Recorded Position := do
  let p ← posAt offset
  ask (.resolve p) do checked ((← get).stream.lexer.lines.position p)

def unexpected (expected : Token → String) : Recorded α := do
  let t ← peek 0
  let position ← positionAt t.start
  throw (.rejected (.unexpectedToken position (expected t.token) t.token.describe))

def expect (t : Terminal) : Recorded PlacedToken := do
  if t.accepts (← peek 0).token then
    let x ← consume
    return { token := x.token, pos := ← posAt x.start, stop := ← posAt x.stop }
  else
    unexpected t.expectation

def ahead : Lookahead → Recorded Bool
  | .next t => return t.accepts (← peek 0).token
  | .nextNot t => return !t.accepts (← peek 0).token
  | .nextTwo t u => do
    if t.accepts (← peek 0).token then
      return u.accepts (← peek 1).token
    else
      return false

def enter (maxDepth : Nat) : Recorded Unit := do
  let d ← depth
  if d < maxDepth then
    ask .enter (modify fun s => { s with depth := s.depth + 1 })
  else
    let t ← peek 0
    throw (.rejected (.nestingTooDeep (← positionAt t.start) maxDepth))

def leave : Recorded Unit := ask .leave Parser.leave

def nested (maxDepth : Nat) (p : Recorded α) : Recorded α := do
  enter maxDepth
  let a ← tryCatch p fun e => do
    leave
    throw e
  leave
  return a

def repeatWhile (test : Lookahead) (item : Recorded (List Tree)) : Nat → Recorded (List Tree)
  | 0 => throw (.broken .stepsExhausted)
  | bound + 1 => do
    if ← ahead test then
      let first ← item
      let others ← repeatWhile test item bound
      return first ++ others
    else
      return []

def ofGrammar (maxDepth bound : Nat) (rule : Rule → Recorded (List Tree)) :
    Grammar → Recorded (List Tree)
  | .done => return []
  | .token t => return [.token (← expect t)]
  | .separator t => do
    let _ ← expect t
    return []
  | .fail expected => unexpected fun _ => expected
  | .seq g h => do
    let first ← ofGrammar maxDepth bound rule g
    let second ← ofGrammar maxDepth bound rule h
    return first ++ second
  | .choice test g h => do
    if ← ahead test then ofGrammar maxDepth bound rule g else ofGrammar maxDepth bound rule h
  | .many test g => repeatWhile test (ofGrammar maxDepth bound rule g) bound
  | .node k g => return [.node k (← ofGrammar maxDepth bound rule g)]
  | .nested g => nested maxDepth (ofGrammar maxDepth bound rule g)
  | .call r => rule r

def ofRule (maxDepth bound : Nat) : Nat → Rule → Recorded (List Tree)
  | 0, _ => throw (.broken .stepsExhausted)
  | levels + 1, r => ofGrammar maxDepth bound (ofRule maxDepth bound levels) (Grammar.ofRule r)

def run (maxDepth size : Nat) (g : Grammar) : Recorded (List Tree) :=
  ofGrammar maxDepth (size + 1) (ofRule maxDepth (size + 1) (size + 1)) g

/-! ## The same parser -/

theorem parser_bind (p : Recorded α) (f : α → Recorded β) :
    (p >>= f).parser = p.parser >>= fun a => (f a).parser := rfl

theorem parser_ite (c : Prop) [Decidable c] (p q : Recorded α) :
    (if c then p else q).parser = if c then p.parser else q.parser := apply_ite parser c p q

theorem parser_expect (t : Terminal) : (expect t).parser = Parser.expect t := by
  rw [expect, parser_bind]
  simp only [parser_ite]
  rfl

theorem parser_ahead (test : Lookahead) : (ahead test).parser = Parser.ahead test := by
  cases test with
  | nextTwo t u =>
    rw [ahead, parser_bind]
    simp only [parser_ite]
    rfl
  | _ => rfl

theorem parser_enter (maxDepth : Nat) : (enter maxDepth).parser = Parser.enter maxDepth := by
  funext s
  rw [enter, parser_bind, Parser.enter, get_bind]
  simp only [parser_ite]
  change (if s.depth < maxDepth then _ else _ : Parser Unit) s = _
  split <;> rfl

theorem parser_nested (maxDepth : Nat) (p : Recorded α) :
    (nested maxDepth p).parser = Parser.nested maxDepth p.parser := by
  rw [nested, parser_bind, parser_enter]
  rfl

theorem parser_repeatWhile (test : Lookahead) (item : Recorded (List Tree)) (bound : Nat) :
    (repeatWhile test item bound).parser = Parser.repeatWhile test item.parser bound := by
  induction bound with
  | zero => rfl
  | succ bound ih =>
    rw [repeatWhile, parser_bind, parser_ahead]
    simp only [parser_ite, parser_bind, ih]
    rfl

theorem parser_ofGrammar {limit bound : Nat} {rule : Rule → Recorded (List Tree)}
    {rule' : Rule → Parser (List Tree)} (hr : ∀ r, (rule r).parser = rule' r) (g : Grammar) :
    (ofGrammar limit bound rule g).parser = Parser.ofGrammar limit bound rule' g := by
  induction g with
  | done => rfl
  | token t =>
    rw [ofGrammar, parser_bind, parser_expect]
    rfl
  | separator t =>
    rw [ofGrammar, parser_bind, parser_expect]
    rfl
  | fail expected => rfl
  | seq g h ihg ihh =>
    rw [ofGrammar, parser_bind, ihg]
    simp only [parser_bind, ihh]
    rfl
  | choice test g h ihg ihh =>
    rw [ofGrammar, parser_bind, parser_ahead]
    simp only [parser_ite, ihg, ihh]
    rfl
  | many test g ih => rw [ofGrammar, parser_repeatWhile, ih, Parser.ofGrammar]
  | node k g ih =>
    rw [ofGrammar, parser_bind, ih]
    rfl
  | nested g ih => rw [ofGrammar, parser_nested, ih, Parser.ofGrammar]
  | call r => exact hr r

theorem parser_ofRule (limit bound levels : Nat) (r : Rule) :
    (ofRule limit bound levels r).parser = Parser.ofRule limit bound levels r := by
  induction levels generalizing r with
  | zero => rfl
  | succ levels ih => exact parser_ofGrammar ih (.ofRule r)

theorem parser_run (limit size : Nat) (g : Grammar) :
    (run limit size g).parser = Parser.run limit size g :=
  parser_ofGrammar (parser_ofRule limit (size + 1) (size + 1)) g

/-! ## The record of steps in a row -/

section Steps

variable {p : Recorded α} {s s' : ParserState}

theorem steps_bind_ok {f : α → Recorded β} {a : α} (h : p.parser s = .ok a s') :
    (p >>= f).steps s = p.steps s ++ (f a).steps s' := by
  change (p.steps s ++ match p.parser s with
    | .ok a s' => (f a).steps s'
    | .error _ _ => []) = _
  rw [h]

theorem steps_bind_error {f : α → Recorded β} {e : Halt} (h : p.parser s = .error e s') :
    (p >>= f).steps s = p.steps s := by
  change (p.steps s ++ match p.parser s with
    | .ok a s' => (f a).steps s'
    | .error _ _ => []) = _
  rw [h, List.append_nil]

theorem steps_tryCatch_ok {handle : Halt → Recorded α} {a : α} (h : p.parser s = .ok a s') :
    (tryCatch p handle).steps s = p.steps s := by
  change (p.steps s ++ match p.parser s with
    | .ok _ _ => []
    | .error e s' => (handle e).steps s') = _
  rw [h, List.append_nil]

theorem steps_tryCatch_error {handle : Halt → Recorded α} {e : Halt}
    (h : p.parser s = .error e s') :
    (tryCatch p handle).steps s = p.steps s ++ (handle e).steps s' := by
  change (p.steps s ++ match p.parser s with
    | .ok _ _ => []
    | .error e s' => (handle e).steps s') = _
  rw [h]

end Steps

/-! ## The record is complete -/

/-- The requests lead from the first state to the last, each one being made in the state that the
one before it has left behind. -/
def Replays : ParserState → List Step → ParserState → Prop
  | s, [], s' => s' = s
  | s, x :: xs, s' => x.state = s ∧ Replays (x.request.after s) xs s'

theorem Replays.append {s s' s'' : ParserState} {xs ys : List Step} (h : Replays s xs s')
    (h' : Replays s' ys s'') : Replays s (xs ++ ys) s'' := by
  induction xs generalizing s with
  | nil =>
    obtain rfl : s' = s := h
    exact h'
  | cons x xs ih => exact ⟨h.1, ih h.2⟩

/-- The calls of the token stream among the requests. -/
def calls (xs : List Step) : List TokenStream.Call :=
  xs.filterMap fun x => match x.request with
    | .token q => some q
    | _ => none

/-- The stream at the end is the one that the calls lead to. -/
theorem Replays.stream_eq {s s' : ParserState} {xs : List Step} (h : Replays s xs s') :
    s'.stream = s.stream.afterCalls (calls xs) := by
  induction xs generalizing s with
  | nil =>
    obtain rfl : s' = s := h
    rfl
  | cons x xs ih =>
    obtain ⟨state, request⟩ := x
    rw [ih h.2]
    cases request <;> rfl

/-- The record accounts for all that the parser does to the state. -/
def Complete (p : Recorded α) : Prop := ∀ s, Replays s (p.steps s) (endState (p.parser s))

theorem complete_pure (a : α) : Complete (pure a) := fun _ => rfl

theorem complete_throw (e : Halt) : Complete (throw e : Recorded α) := fun _ => rfl

theorem complete_depth : Complete depth := fun _ => rfl

theorem complete_ask {r : Request} {p : Parser α} (h : ∀ s, endState (p s) = r.after s) :
    Complete (ask r p) := fun s => ⟨rfl, h s⟩

theorem Complete.bind {p : Recorded α} {f : α → Recorded β} (hp : Complete p)
    (hf : ∀ a, Complete (f a)) : Complete (p >>= f) := by
  intro s
  have first := hp s
  cases h : p.parser s with
  | ok a s' =>
    rw [h] at first
    rw [steps_bind_ok h, parser_bind, bind_ok h]
    exact first.append (hf a s')
  | error e s' =>
    rw [h] at first
    rw [steps_bind_error h, parser_bind, bind_error h]
    exact first

theorem Complete.tryCatch {p : Recorded α} {handle : Halt → Recorded α} (hp : Complete p)
    (hh : ∀ e, Complete (handle e)) : Complete (tryCatch p handle) := by
  intro s
  have first := hp s
  change Replays s _ (endState (MonadExcept.tryCatch p.parser (fun e => (handle e).parser) s))
  cases h : p.parser s with
  | ok a s' =>
    rw [h] at first
    rw [steps_tryCatch_ok h, tryCatch_ok h]
    exact first
  | error e s' =>
    rw [h] at first
    rw [steps_tryCatch_error h, tryCatch_error h]
    exact first.append (hh e s')

theorem Complete.ite {c : Prop} [Decidable c] {p q : Recorded α} (hp : Complete p)
    (hq : Complete q) : Complete (if c then p else q) := by
  split
  · exact hp
  · exact hq

/-- An answer that is checked leaves the state as it is. -/
theorem endState_checked (r : Except Violation α) (s : ParserState) :
    endState (checked r s) = s := by
  cases r <;> rfl

theorem complete_peek (n : Nat) : Complete (peek n) := by
  refine complete_ask fun s => ?_
  rw [Parser.peek, get_bind, Request.after, TokenStream.call]
  cases s.stream.peekNth n <;> rfl

theorem complete_consume : Complete consume := complete_ask fun _ => rfl

theorem complete_posAt (offset : Nat) : Complete (posAt offset) :=
  complete_ask fun s => endState_checked (s.stream.lexer.lines.pos offset) s

theorem complete_positionAt (offset : Nat) : Complete (positionAt offset) :=
  (complete_posAt offset).bind fun p =>
    complete_ask fun s => endState_checked (s.stream.lexer.lines.position p) s

theorem complete_unexpected (expected : Token → String) :
    Complete (unexpected expected : Recorded α) :=
  (complete_peek 0).bind fun t => (complete_positionAt t.start).bind fun _ => complete_throw _

theorem complete_expect (t : Terminal) : Complete (expect t) :=
  (complete_peek 0).bind fun _ => .ite
    (complete_consume.bind fun x => (complete_posAt x.start).bind fun _ =>
      (complete_posAt x.stop).bind fun _ => complete_pure _)
    (complete_unexpected t.expectation)

theorem complete_ahead (test : Lookahead) : Complete (ahead test) := by
  cases test with
  | next t => exact (complete_peek 0).bind fun _ => complete_pure _
  | nextNot t => exact (complete_peek 0).bind fun _ => complete_pure _
  | nextTwo t u =>
    exact (complete_peek 0).bind fun _ => .ite
      ((complete_peek 1).bind fun _ => complete_pure _) (complete_pure _)

theorem complete_enter (limit : Nat) : Complete (enter limit) :=
  complete_depth.bind fun _ => .ite (complete_ask fun _ => rfl)
    ((complete_peek 0).bind fun t => (complete_positionAt t.start).bind fun _ => complete_throw _)

theorem complete_leave : Complete leave := by
  refine complete_ask fun s => ?_
  rw [Parser.leave, get_bind, Request.after]
  obtain ⟨stream, _ | d⟩ := s <;> rfl

theorem Complete.nested {p : Recorded α} (hp : Complete p) (limit : Nat) :
    Complete (nested limit p) :=
  (complete_enter limit).bind fun _ =>
    (hp.tryCatch fun e => complete_leave.bind fun _ => complete_throw e).bind fun a =>
      complete_leave.bind fun _ => complete_pure a

theorem Complete.repeatWhile {item : Recorded (List Tree)} (hi : Complete item)
    (test : Lookahead) (bound : Nat) : Complete (repeatWhile test item bound) := by
  induction bound with
  | zero => exact complete_throw _
  | succ bound ih =>
    exact (complete_ahead test).bind fun _ => .ite
      (hi.bind fun _ => ih.bind fun _ => complete_pure _) (complete_pure _)

theorem complete_ofGrammar {limit bound : Nat} {rule : Rule → Recorded (List Tree)}
    (hr : ∀ r, Complete (rule r)) (g : Grammar) : Complete (ofGrammar limit bound rule g) := by
  induction g with
  | done => exact complete_pure _
  | token t => exact (complete_expect t).bind fun _ => complete_pure _
  | separator t => exact (complete_expect t).bind fun _ => complete_pure _
  | fail expected => exact complete_unexpected _
  | seq g h ihg ihh => exact ihg.bind fun _ => ihh.bind fun _ => complete_pure _
  | choice test g h ihg ihh => exact (complete_ahead test).bind fun _ => .ite ihg ihh
  | many test g ih => exact ih.repeatWhile test bound
  | node k g ih => exact ih.bind fun _ => complete_pure _
  | nested g ih => exact ih.nested limit
  | call r => exact hr r

theorem complete_ofRule (limit bound levels : Nat) (r : Rule) :
    Complete (ofRule limit bound levels r) := by
  induction levels generalizing r with
  | zero => exact complete_throw _
  | succ levels ih => exact complete_ofGrammar ih (.ofRule r)

/-- What is recorded is the parser `q`, and the record leads from any state to the one in which `q`
ends. -/
def Records (p : Recorded α) (q : Parser α) : Prop :=
  p.parser = q ∧ ∀ s, Replays s (p.steps s) (endState (q s))

/-- A whole parse is recorded. -/
theorem records_run (limit size : Nat) (g : Grammar) :
    (run limit size g).Records (Parser.run limit size g) := by
  refine ⟨parser_run limit size g, fun s => ?_⟩
  rw [← parser_run]
  exact complete_ofGrammar (complete_ofRule limit (size + 1) (size + 1)) g s

end Recorded
end Parser
end GraphQL
