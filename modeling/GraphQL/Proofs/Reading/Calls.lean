import GraphQL.Proofs.Lexing.Partition
import GraphQL.Proofs.Reading.Stream

/-!
# A stream and its lexer

Whoever calls a token stream sees the tokens of its lexer one after another, whatever has been
looked at in between. What does depend on that is how far the lexer has gone: it has read the tokens
that have been taken, and beyond them those that had to be looked at.

Results:
1. `lexer_afterCalls`, `asked_add_buffered`: what calls do to the lexer and to the tokens held back.
2. `answers_along`, `taken_along`: the answers to calls depend on the tokens taken before them only.
3. `afterCalls_along`: where calls leave a stream.
4. `calls_refine_lexer`: a stream over a text against the bare lexer over the same text.
-/

namespace GraphQL

namespace TokenStream

/-- What a stream can be called for. -/
inductive Call where
  /-- The next token is taken. -/
  | consume
  /-- The token `n` places ahead is looked at. -/
  | peek (n : Nat)
  deriving DecidableEq, Repr

variable {σ : Type} [LineSink σ]

/-- The answer to a call, and the stream after it. A call for a token too far ahead changes
nothing. -/
def call (s : TokenStream σ) : Call → Except Violation SpannedToken × TokenStream σ
  | .consume => (.ok s.consume.1, s.consume.2)
  | .peek n =>
    match s.peekNth n with
    | .ok (t, s') => (.ok t, s')
    | .error v => (.error v, s)

/-- The stream after a row of calls. -/
def afterCalls (s : TokenStream σ) (calls : List Call) : TokenStream σ :=
  calls.foldl (fun s q => (s.call q).2) s

/-- The answers to a row of calls. -/
def answers (s : TokenStream σ) : List Call → List (Except Violation SpannedToken)
  | [] => []
  | q :: qs => (s.call q).1 :: answers (s.call q).2 qs

/-- The tokens that are taken in a row of calls. -/
def taken (s : TokenStream σ) : List Call → List SpannedToken
  | [] => []
  | .consume :: qs => s.consume.1 :: taken s.consume.2 qs
  | .peek n :: qs => taken (s.call (.peek n)).2 qs

/-- How often a call makes the stream read from its lexer. -/
def pulls (s : TokenStream σ) : Call → Nat
  | .consume => 1 - s.buffered
  | .peek n => if n < capacity then n + 1 - s.buffered else 0

/-- How many tokens the lexer is asked for in a row of calls. -/
def asked (s : TokenStream σ) : List Call → Nat
  | [] => 0
  | q :: qs => s.pulls q + asked (s.call q).2 qs

/-- How many tokens have to be read for a row of calls, when `taken` have been taken before: those
that are taken, and for each look ahead those up to the one that is looked at. -/
def needed (taken : Nat) : List Call → Nat
  | [] => taken
  | .consume :: qs => needed (taken + 1) qs
  | .peek n :: qs => if n < capacity then max (taken + n + 1) (needed taken qs) else needed taken qs

@[simp] theorem afterCalls_nil (s : TokenStream σ) : s.afterCalls [] = s := rfl

@[simp] theorem afterCalls_cons (s : TokenStream σ) (q : Call) (qs : List Call) :
    s.afterCalls (q :: qs) = (s.call q).2.afterCalls qs := rfl

theorem count_consume_cons (q : Call) (qs : List Call) :
    (q :: qs).count .consume = [q].count .consume + qs.count .consume :=
  (List.count_append : ([q] ++ qs).count Call.consume = _)

/-! ## The lexer and the tokens held back -/

theorem lexer_fill (s : TokenStream σ) (count : Nat) :
    (s.fill count).lexer = s.lexer.after (count - s.buffered) := by
  have repeated (k : Nat) : (Nat.repeat pull k s).lexer = s.lexer.after k := by
    induction k with
    | zero => rfl
    | succ k ih => rw [Nat.repeat, pull, ih, Lexer.after_succ]
  exact repeated _

theorem call_peek_of_lt (s : TokenStream σ) {n : Nat} (h : n < capacity) :
    (s.call (.peek n)).2 = s.fill (n + 1) := by
  rw [call, peekNth, if_pos h]

theorem call_peek_of_not_lt (s : TokenStream σ) {n : Nat} (h : ¬ n < capacity) :
    s.call (.peek n) = (.error (.lookaheadTooFar (n + 1) capacity), s) := by
  rw [call, peekNth, if_neg h]

/-- A call drives the lexer as far as it reads tokens from it. -/
theorem lexer_call (s : TokenStream σ) (q : Call) :
    (s.call q).2.lexer = s.lexer.after (s.pulls q) := by
  cases q with
  | consume =>
    obtain ⟨l, _ | ⟨t, buffer⟩⟩ := s
    · rfl
    · simp [call, consume, pulls, buffered]
  | peek n =>
    by_cases h : n < capacity
    · rw [call_peek_of_lt s h, lexer_fill, pulls, if_pos h]
    · rw [call_peek_of_not_lt s h, pulls, if_neg h, Lexer.after_zero]

theorem lexer_afterCalls (s : TokenStream σ) (calls : List Call) :
    (s.afterCalls calls).lexer = s.lexer.after (s.asked calls) := by
  induction calls generalizing s with
  | nil => rfl
  | cons q qs ih => rw [afterCalls_cons, ih, lexer_call, Lexer.after_after, asked]

/-- A token that a call reads from the lexer is taken or held back. -/
theorem pulls_add_buffered (s : TokenStream σ) (q : Call) :
    s.pulls q + s.buffered = [q].count .consume + (s.call q).2.buffered := by
  cases q with
  | consume =>
    obtain ⟨l, _ | ⟨t, buffer⟩⟩ := s
    · rfl
    · simp only [call, consume, pulls, buffered, List.length_cons, List.count_singleton_self]
      omega
  | peek n =>
    have none : [Call.peek n].count .consume = 0 := rfl
    by_cases h : n < capacity
    · rw [call_peek_of_lt s h, none, pulls, if_pos h, buffered, buffered, length_buffer_fill]
      omega
    · rw [call_peek_of_not_lt s h, none, pulls, if_neg h]

/-- Every token that is read from the lexer is taken or held back, and none is both. -/
theorem asked_add_buffered (s : TokenStream σ) (calls : List Call) :
    s.asked calls + s.buffered = calls.count .consume + (s.afterCalls calls).buffered := by
  induction calls generalizing s with
  | nil => simp [asked]
  | cons q qs ih =>
    have first := pulls_add_buffered s q
    have others := ih (s.call q).2
    rw [afterCalls_cons, asked, count_consume_cons]
    omega

/-! ## Calls at a place -/

/-- What the bare lexer `l` has to say to a call when `i` of its tokens have been taken. -/
def Call.answer (l : Lexer σ) (i : Nat) : Call → Except Violation SpannedToken
  | consume => .ok (l.nth i)
  | peek n =>
    if n < capacity then .ok (l.nth (i + n))
    else .error (.lookaheadTooFar (n + 1) capacity)

/-- What it has to say to a row of calls. -/
def Call.replies (l : Lexer σ) : Nat → List Call → List (Except Violation SpannedToken)
  | _, [] => []
  | i, q :: qs => q.answer l i :: replies l (i + [q].count .consume) qs

/-- Where a call at a place leads to. -/
def Call.move (c : Cursor) : Call → Cursor
  | consume => c.take
  | peek n => if n < capacity then { c with seen := max c.seen (c.index + n + 1) } else c

/-- What is taken has to be read, and beyond that no more than the stream can hold. -/
theorem needed_bounds (taken : Nat) (calls : List Call) :
    taken + calls.count .consume ≤ needed taken calls ∧
      needed taken calls ≤ taken + calls.count .consume + capacity := by
  induction calls generalizing taken with
  | nil => exact ⟨Nat.le_refl taken, Nat.le_add_right _ _⟩
  | cons q qs ih =>
    cases q with
    | consume =>
      obtain ⟨least, most⟩ := ih (taken + 1)
      rw [needed, List.count_cons_self]
      omega
    | peek n =>
      obtain ⟨least, most⟩ := ih taken
      rw [List.count_cons_of_ne Call.noConfusion, needed]
      split <;> omega

variable (l : Lexer σ) {c : Cursor}

theorem call_along (ordered : c.Ordered) (q : Call) :
    (along l c).call q = (q.answer l c.index, along l (q.move c)) := by
  cases q with
  | consume => rw [call, consume_along l ordered, Call.answer, Call.move]
  | peek n =>
    by_cases h : n < capacity
    · rw [call, peekNth_along l ordered h, Call.answer, Call.move, if_pos h, if_pos h]
    · rw [call_peek_of_not_lt _ h, Call.answer, Call.move, if_neg h, if_neg h]

theorem Call.index_move (c : Cursor) (q : Call) :
    (q.move c).index = c.index + [q].count .consume := by
  cases q with
  | consume => rfl
  | peek n =>
    rw [move]
    split <;> rfl

theorem Call.ordered_move (ordered : c.Ordered) (q : Call) : (q.move c).Ordered := by
  cases q with
  | consume => exact c.upto_take.ordered ordered
  | peek n =>
    rw [move]
    split
    · exact Nat.le_trans ordered (Nat.le_max_left _ _)
    · exact ordered

/-- The answers to calls are those that the bare lexer gives: which tokens have been looked at
before plays no part. -/
theorem answers_along (ordered : c.Ordered) (calls : List Call) :
    (along l c).answers calls = Call.replies l c.index calls := by
  induction calls generalizing c with
  | nil => rfl
  | cons q qs ih =>
    rw [answers, call_along l ordered, ih (Call.ordered_move ordered q), Call.index_move,
      Call.replies]

theorem taken_along (ordered : c.Ordered) (calls : List Call) :
    (along l c).taken calls = (List.range' c.index (calls.count .consume)).map l.nth := by
  induction calls generalizing c with
  | nil => rfl
  | cons q qs ih =>
    cases q with
    | consume =>
      rw [taken, consume_along l ordered, ih (c.upto_take.ordered ordered), List.count_cons_self,
        List.range'_succ, List.map_cons]
      rfl
    | peek n =>
      have index : (Call.move c (.peek n)).index = c.index := Call.index_move c (.peek n)
      rw [taken, call_along l ordered, ih (Call.ordered_move ordered _), index,
        List.count_cons_of_ne Call.noConfusion]

/-- A call looks as far as the row of calls that it starts has to. -/
theorem Call.seen_move (c : Cursor) (q : Call) (qs : List Call) :
    max (q.move c).seen (needed (q.move c).index qs) = max c.seen (needed c.index (q :: qs)) := by
  cases q with
  | consume =>
    obtain ⟨enough, -⟩ := needed_bounds (c.index + 1) qs
    simp only [move, Cursor.take, needed]
    omega
  | peek n =>
    rw [move, needed]
    split
    · simp only
      omega
    · rfl

/-- Calls lead behind the tokens that they take, and look as far as they need. -/
theorem afterCalls_along (ordered : c.Ordered) (calls : List Call) :
    (along l c).afterCalls calls =
      along l ⟨c.index + calls.count .consume, max c.seen (needed c.index calls)⟩ := by
  induction calls generalizing c with
  | nil =>
    have seen : max c.seen c.index = c.seen := Nat.max_eq_left ordered
    rw [afterCalls_nil, needed, seen]
    rfl
  | cons q qs ih =>
    rw [afterCalls_cons, call_along l ordered, ih (Call.ordered_move ordered q), Call.index_move,
      Nat.add_assoc, ← count_consume_cons, ← Call.index_move, Call.seen_move]

/-- The same from the start of a text on. -/
theorem afterCalls_start (calls : List Call) :
    ({ lexer := l } : TokenStream σ).afterCalls calls =
      along l ⟨calls.count .consume, needed 0 calls⟩ := by
  have h := afterCalls_along l (c := ⟨0, 0⟩) (Nat.le_refl 0) calls
  rwa [Nat.zero_add, Nat.zero_max] at h

theorem buffered_along (c : Cursor) : (along l c).buffered = c.seen - c.index := by
  simp [buffered, along]

/-- The lexer is asked for the tokens that are needed, and for no others. -/
theorem asked_start (calls : List Call) :
    ({ lexer := l } : TokenStream σ).asked calls = needed 0 calls := by
  obtain ⟨least, -⟩ := needed_bounds 0 calls
  have account := asked_add_buffered ({ lexer := l } : TokenStream σ) calls
  rw [afterCalls_start, buffered_along] at account
  simp only [buffered, List.length_nil] at account
  omega

/-- Two tokens have been read, although only one of them has been taken. -/
example : needed 0 [.peek 1, .consume, .peek 0] = 2 := rfl

/-- The token `n` places ahead: the one that is taken when those in front of it have been. -/
def upcoming (s : TokenStream σ) (n : Nat) : SpannedToken :=
  (s.afterCalls (List.replicate n .consume)).consume.1

theorem upcoming_along (ordered : c.Ordered) (n : Nat) :
    (along l c).upcoming n = l.nth (c.index + n) := by
  have all : (List.replicate n Call.consume).count .consume = n := List.count_replicate_self
  rw [upcoming, afterCalls_along l ordered, all, consume_along]
  have bounds := needed_bounds c.index (List.replicate n .consume)
  rw [all] at bounds
  exact Nat.le_trans bounds.1 (Nat.le_max_right _ _)

/-- From the one stream to the other at least one token has been taken, and none of those taken is
the end of the text. -/
def Takes (s s' : TokenStream σ) : Prop :=
  ∃ k, 0 < k ∧ (∀ i, i < k → (s.upcoming i).token.kind ≠ .eof) ∧
    ∀ n, s'.upcoming n = s.upcoming (k + n)

theorem takes_along {c' : Cursor} (ordered : c.Ordered) (ordered' : c'.Ordered)
    (forward : c.index < c'.index)
    (before : ∀ i, i < c'.index → (l.nth i).token.kind ≠ .eof) :
    (along l c).Takes (along l c') := by
  refine ⟨c'.index - c.index, Nat.sub_pos_of_lt forward, fun i hi => ?_, fun n => ?_⟩
  · rw [upcoming_along l ordered]
    exact before _ (by omega)
  · rw [upcoming_along l ordered, upcoming_along l ordered', ← Nat.add_assoc,
      Nat.add_sub_cancel' (Nat.le_of_lt forward)]

end TokenStream

variable {σ : Type} [LineSink σ]

open TokenStream in
/-- However a stream over a text is called, it gives the tokens that the bare lexer reads from the
text one after another, the end of the text for ever. Looking ahead finds the token that will be
taken and has no influence on any later answer; looking further than two tokens ahead is refused. At
most two tokens are held back, and the lexer has read no more tokens than the calls made
necessary. -/
theorem calls_refine_lexer (source : String) (lines : σ) (calls : List Call) :
    let l := Lexer.ofSource source lines
    let start : TokenStream σ := { lexer := l }
    let s := start.afterCalls calls
    let k := calls.count .consume
    (start.taken calls = (List.range k).map l.nth ∧ s.consume.1 = l.nth k) ∧
    ((∀ i, i < tokenCount source → (l.nth i).token.kind ≠ .eof) ∧
      ∀ i, tokenCount source ≤ i →
        l.nth i = ⟨.eof, source.utf8ByteSize, source.utf8ByteSize⟩) ∧
    (∀ n, n < 2 → ∃ t s', s.peekNth n = .ok (t, s') ∧
      (∀ more, more.count .consume = n → (s'.afterCalls more).consume.1 = t) ∧
      ∀ more, s'.answers more = s.answers more) ∧
    (∀ n, 2 ≤ n → s.call (.peek n) = (.error (.lookaheadTooFar (n + 1) 2), s)) ∧
    s.buffered ≤ 2 ∧
    start.asked calls = needed 0 calls ∧ s.lexer = l.after (needed 0 calls) := by
  intro l start s k
  have state : s = along l ⟨k, needed 0 calls⟩ := afterCalls_start l calls
  have bounds := needed_bounds 0 calls
  rw [Nat.zero_add] at bounds
  obtain ⟨least, most⟩ : k ≤ needed 0 calls ∧ needed 0 calls ≤ k + 2 := bounds
  have ordered : Cursor.Ordered ⟨k, needed 0 calls⟩ := least
  refine ⟨⟨?_, ?_⟩, ⟨fun i => kind_nth_ne_eof source lines, ?_⟩, ?_, ?_, ?_,
    asked_start l calls, ?_⟩
  · rw [List.range_eq_range']
    exact taken_along l (c := ⟨0, 0⟩) (Nat.le_refl 0) calls
  · rw [state, consume_along l ordered]
  · intro i hi
    rw [Lexer.nth_of_eof_le (kind_nth_tokenCount source lines) hi]
    exact nth_tokenCount_eq source lines
  · intro n hn
    have looked := peekNth_along l ordered hn
    have ordered' : Cursor.Ordered ⟨k, max (needed 0 calls) (k + n + 1)⟩ :=
      Nat.le_trans least (Nat.le_max_left _ _)
    refine ⟨l.nth (k + n), _, state ▸ looked, ?_, ?_⟩
    · intro more count
      rw [afterCalls_along l ordered', count, consume_along]
      exact Nat.le_trans (count ▸ (needed_bounds k more).1) (Nat.le_max_right _ _)
    · intro more
      rw [state, answers_along l ordered', answers_along l ordered]
  · intro n hn
    exact call_peek_of_not_lt s (Nat.not_lt.mpr hn)
  · rw [state, buffered_along]
    exact Nat.sub_le_of_le_add (Nat.add_comm k 2 ▸ most)
  · rw [state, along]

end GraphQL
